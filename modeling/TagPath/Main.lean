import TagPath.Command.Run

/-! # The command line

The command in the real system: its files and streams, and the words about the arguments.
-/
namespace TagPath

/-! ## The real system -/

/-- The number and the words that the system gives with an error. -/
def codeAndWords? : IO.Error → Option (UInt32 × String)
  | .alreadyExists _ code words | .otherError code words | .resourceBusy code words
  | .resourceVanished code words | .unsupportedOperation code words
  | .hardwareFault code words | .unsatisfiedConstraints code words
  | .illegalOperation code words | .protocolError code words | .timeExpired code words
  | .interrupted _ code words | .noFileOrDirectory _ code words
  | .invalidArgument _ code words | .permissionDenied _ code words
  | .resourceExhausted _ code words | .inappropriateType _ code words
  | .noSuchThing _ code words => some (code, words)
  | .unexpectedEof | .userError _ => none

/-- The fault that an error of the system stands for. -/
def faultOfError (error : IO.Error) : FileFault :=
  match codeAndWords? error with
  | some (code, words) => .ofCode code.toNat words
  | none => .system 0 (toString error)

/-- Does something with files; a fault of the system becomes a value. -/
def attempt {α : Type} (action : IO α) : IO (Except FileFault α) := do
  try
    return .ok (← action)
  catch error =>
    return .error (faultOfError error)

/-- All bytes of a stream behind those read before. -/
partial def readRest (stream : IO.FS.Stream) (before : ByteArray) : IO ByteArray := do
  let bytes ← stream.read 65536
  if bytes.isEmpty then return before else readRest stream (before ++ bytes)

/-- Writes the file of a name; nothing is held back, so that a fault shows here. -/
def writeFile (name : String) (bytes : ByteArray) : IO Unit := do
  let handle ← IO.FS.Handle.mk name .write
  handle.write bytes
  handle.flush

/-- Writes to standard output; nothing is held back here either. -/
def writeOutput (bytes : ByteArray) : IO Unit := do
  let stream ← IO.getStdout
  stream.write bytes
  stream.flush

/-- The files and streams of the process. -/
def processSystem : System IO where
  readInput := attempt do readRest (← IO.getStdin) .empty
  readFile name := attempt do (← IO.FS.Handle.mk name .read).readBinToEnd
  writeOutput bytes := attempt (writeOutput bytes)
  writeFile name bytes := attempt (writeFile name bytes)
  tell notice := IO.eprint notice.written

/-! ## Words about the arguments -/

/-- How the command is called. -/
def usageText : String := "Usage: xpathlite [OPTIONS] --path <PATH> [INPUT]\n"

/-- The answer to a request for help. -/
def helpText : String :=
  "Query XML documents with simple path expressions\n\n" ++ usageText ++ "\n" ++
  "Arguments:\n" ++
  "  [INPUT]  Input file (defaults to stdin)\n\n" ++
  "Options:\n" ++
  "  -p, --path <PATH>            Path expression to evaluate; repeat to evaluate several\n" ++
  "  -m, --mode <MODE>            How matches are reported [default: nodes]\n" ++
  "                               [possible values: nodes, any, string, number, strings,\n" ++
  "                               numbers]\n" ++
  "      --pretty                 Indent element output\n" ++
  "      --indent <INDENT>        Spaces per indentation level with --pretty [default: " ++
  toString Layout.defaultWidth ++ "]\n" ++
  "      --max-depth <MAX_DEPTH>  Maximum element nesting depth [default: " ++
  toString ({} : Limits).maxDepth ++ "]\n" ++
  "  -o, --output <OUTPUT>        Output file (defaults to stdout)\n" ++
  "  -h, --help                   Print help\n" ++
  "  -V, --version                Print version\n"

/-- What is wrong with the arguments, in words. -/
def complaintAbout : UsageError → String
  | .unknownArgument argument => "unexpected argument " ++ argument
  | .missingValue option => "a value is required for --" ++ option.word
  | .unwantedValue option => "no value is expected for --" ++ option.word
  | .invalidValue option value => "invalid value " ++ value ++ " for --" ++ option.word
  | .emptyInput => "the input file has no name"
  | .repeated option => "--" ++ option.word ++ " cannot be given more than once"
  | .missingPath => "--path is required"

/-- Reads arguments, and finds words about those that cannot be followed. -/
def readWithWords (arguments : List String) : Reading :=
  .ofRequest helpText (fun error => "error: " ++ complaintAbout error ++ "\n\n" ++ usageText)
    (Request.ofArguments arguments)

end TagPath

open TagPath in
/-- The command: gives the exit code. -/
def main (arguments : List String) : IO UInt32 :=
  return (← command readWithWords processSystem arguments).toUInt32
