import TagPath.Text.Terminal
import TagPath.Document.Reader
import TagPath.Path.Cache
import TagPath.Command.Arguments
import TagPath.Command.System

/-! # A run of the command

A run reads the document, answers all paths, and only then writes the answer: at the
first fault nothing is written at all.  The order of the checks is the document's bytes,
the document, and the paths in the order given.  The entries reported for all paths are
written one a line; an answer without characters stays without a line.

How arguments are read and in which system a run takes place is left open: `command` takes
both.  `runCommand` is the run in a world of files, with the options of this command.
-/
namespace TagPath
open Text

/-! ## Faults -/

/-- Why a run fails. -/
inductive Failure where
  | inputFile (name : String) (fault : FileFault)
  | standardInput (fault : FileFault)
  /-- Standard input has nothing but blanks. -/
  | blankInput
  | document (cause : DocumentError)
  | path (source : String) (cause : PathError)
  | outputFile (name : String) (fault : FileFault)
  | standardOutput (fault : FileFault)
deriving Repr, DecidableEq

/-- The failure in words, from what was being done down to the cause. -/
def Failure.chain : Failure → List String
  | inputFile name fault => ["failed to read input file " ++ name, fault.reason]
  | standardInput fault => ["failed to read stdin", fault.reason]
  | blankInput => ["no input provided on stdin"]
  | document cause => ["failed to parse document", cause.message]
  | path source cause => ["failed to compile path " ++ source, cause.message]
  | outputFile name fault => ["failed to write output file " ++ name, fault.reason]
  | standardOutput fault => ["failed to write stdout", fault.reason]

/-- Where a run ends before its time. -/
inductive Abort where
  | failure (cause : Failure)
  /-- A text cannot be held. -/
  | overflow
deriving Repr, DecidableEq

namespace Abort

/-- What is told about it. -/
def notice : Abort → Notice
  | failure cause => .failure cause.chain
  | overflow => .overflow

def exitCode : Abort → Nat
  | failure _ => 1
  | overflow => 101

end Abort

/-! ## The answer -/

/-- The text of some entries, one a line, if it can be held. -/
def textOfEntries? (entries : List String) : Option String :=
  (held? ("\n".intercalate entries)).bind fun joined =>
    if joined = "" then some "" else held? (joined ++ "\n")

namespace Options

/-- The document's text, taken from a file's bytes. -/
def inputOfFile (name : String) (bytes : Except FileFault ByteArray) : Except Failure String :=
  match bytes with
  | .error fault => .error (.inputFile name fault)
  | .ok bytes => match textOfBytes bytes with
    | .error fault => .error (.inputFile name fault)
    | .ok text => .ok text

/-- The document's text, taken from the bytes of standard input. -/
def inputOfStream (bytes : Except FileFault ByteArray) : Except Failure String :=
  match bytes with
  | .error fault => .error (.standardInput fault)
  | .ok bytes => match textOfBytes bytes with
    | .error fault => .error (.standardInput fault)
    | .ok text => if trim text.toList = [] then .error .blankInput else .ok text

/-- Compiles paths from left to right through a cache, and writes out what is reported of
each before the next one is compiled. -/
def reportPaths (options : Options) (root : Node) (cache : PathCache) :
    List String → Except Abort (List String)
  | [] => .ok []
  | source :: rest => match cache.get source with
    | (.error cause, _) => .error (.failure (.path source cause))
    | (.ok compiled, cache) => match options.mode.report? options.layout compiled.path root with
      | none => .error .overflow
      | some entries => match options.reportPaths root cache rest with
        | .error abort => .error abort
        | .ok others => .ok (entries ++ others)

/-- The answer to a document. -/
def answer (options : Options) (document : String) : Except Abort String :=
  match Node.read options.limits (some document) with
  | .error cause => .error (.failure (.document cause))
  | .ok root => match options.reportPaths root {} options.paths with
    | .error abort => .error abort
    | .ok entries => match textOfEntries? entries with
      | none => .error .overflow
      | some text => .ok text

/-! ## In a system -/

section
variable {m : Type → Type} [Monad m]

/-- The document's text, from the file that was named or from standard input. -/
def fetch (options : Options) (system : System m) : m (Except Failure String) := do
  match options.input with
  | some name => return inputOfFile name (← system.readFile name)
  | none => return inputOfStream (← system.readInput)

/-- Writes an answer to the file that was named or to standard output. -/
def deliver (options : Options) (system : System m) (text : String) :
    m (Except Failure Unit) := do
  match options.output with
  | some name => return (← system.writeFile name text.toUTF8).mapError (.outputFile name)
  | none => return (← system.writeOutput text.toUTF8).mapError .standardOutput

/-- Does what was asked for. -/
def perform (options : Options) (system : System m) : m (Except Abort Unit) := do
  match ← options.fetch system with
  | .error failure => return .error (.failure failure)
  | .ok document => match options.answer document with
    | .error abort => return .error abort
    | .ok text => return (← options.deliver system text).mapError .failure

end
end Options

/-- What arguments are read as. -/
inductive Reading where
  | run (options : Options)
  /-- Nothing is run; something about the arguments is printed. -/
  | stop (exitCode : Nat) (output words : String)
deriving Repr, DecidableEq

/-- The command, for a way to read arguments and for a system: gives the exit code. -/
def command {m : Type → Type} [Monad m] (read : List String → Reading) (system : System m)
    (arguments : List String) : m Nat := do
  match read arguments with
  | .stop exitCode output words =>
    let _ ← system.writeOutput output.toUTF8
    system.tell (.words words)
    return exitCode
  | .run options => match ← options.perform system with
    | .ok () => return 0
    | .error abort =>
      system.tell abort.notice
      return abort.exitCode

/-- A run in a world: the exit code, and the world afterwards. -/
def World.run (world : World) (read : List String → Reading) (arguments : List String) :
    Nat × World :=
  world.act (command read World.system arguments)

/-! ## This command -/

/-- The answer to a request for the version. -/
def versionText : String := "xpathlite 0.1.0\n"

/-- What a request is answered with, given the words about the arguments. -/
def Reading.ofRequest (help : String) (complaint : UsageError → String) :
    Except UsageError Request → Reading
  | .error error => .stop 2 "" (complaint error)
  | .ok .help => .stop 0 help ""
  | .ok .version => .stop 0 versionText ""
  | .ok (.run options) => .run options

/-- Reads arguments, without words about them. -/
def readArguments (arguments : List String) : Reading :=
  .ofRequest "" (fun _ => "") (Request.ofArguments arguments)

/-- A notice as it is written.  An error quotes names and paths, so it is written as it is
shown on a terminal. -/
def Notice.written : Notice → String
  | words text => text
  | failure chain => "ERROR " ++ String.ofList (shown (": ".intercalate chain).toList) ++ "\n"
  | overflow => "capacity overflow\n"

/-- What a run leaves behind. -/
structure Outcome where
  exitCode : Nat
  output : String
  errors : String
  files : Files

/-- A run of the command with these arguments, standard input and files. -/
def runCommand (arguments : List String) (standardInput : ByteArray) (files : Files) : Outcome :=
  let (exitCode, world) :=
    World.run { files, standardInput := .ok standardInput } readArguments arguments
  { exitCode
    output := (String.fromUTF8? world.output).getD ""
    errors := String.join (world.told.map Notice.written)
    files := world.files }

end TagPath
