import TagPath.Text.Cut
import TagPath.Number.Decimal
import TagPath.Command.Options

/-! # Arguments of the command

Arguments are read from left to right.  An argument that starts with `-` and goes on
names an option, by a word after `--` or by a letter after `-`; every other one is
an operand, of which there is at most one, the document's file.  An option's value
is attached, after an `=` or right behind the letter, or is the next argument, which
must not name an option.  After `--` all arguments are operands.  Only `--path` may
be given more than once, and it must be given.  The first argument that is at fault
or asks for help or for the version decides.

This is one way to read arguments; what is proved about runs holds for any other.
-/
namespace TagPath
open Text

/-- The options that the command knows. -/
inductive OptionName where
  | path
  | mode
  | pretty
  | indent
  | maxDepth
  | output
  | help
  | version
deriving Repr, DecidableEq

namespace OptionName

/-- The option of a word. -/
def ofWord? : String → Option OptionName
  | "path" => some path
  | "mode" => some mode
  | "pretty" => some pretty
  | "indent" => some indent
  | "max-depth" => some maxDepth
  | "output" => some output
  | "help" => some help
  | "version" => some version
  | _ => none

/-- The option of a letter. -/
def ofLetter? : Char → Option OptionName
  | 'p' => some path
  | 'm' => some mode
  | 'o' => some output
  | 'h' => some help
  | 'V' => some version
  | _ => none

/-- The word of an option. -/
def word : OptionName → String
  | path => "path"
  | mode => "mode"
  | pretty => "pretty"
  | indent => "indent"
  | maxDepth => "max-depth"
  | output => "output"
  | help => "help"
  | version => "version"

/-- Whether the option comes with a value. -/
def takesValue : OptionName → Bool
  | path | mode | indent | maxDepth | output => true
  | pretty | help | version => false

end OptionName

/-- What an argument is on its own. -/
inductive Argument where
  /-- The mark behind which there are only operands. -/
  | operandsOnly
  | operand (value : String)
  /-- An option, with the value attached to it. -/
  | option (name : OptionName) (value : Option String)
  | unknown
deriving Repr, DecidableEq

namespace Argument

/-- An option that is named by a word, which an `=` parts from a value. -/
def ofLong (text : List Char) : Argument :=
  let (word, value) := match cut? ['='] text with
    | none => (text, none)
    | some (word, value) => (word, some (String.ofList value))
  match OptionName.ofWord? (String.ofList word) with
  | none => unknown
  | some name => option name value

/-- An option that is named by a letter.  What is behind the letter is the value of
an option that takes one, but for an `=` in front. -/
def ofShort (letter : Char) (behind : List Char) : Argument :=
  match OptionName.ofLetter? letter with
  | none => unknown
  | some name =>
    if name.takesValue then
      match behind with
      | [] => option name none
      | '=' :: value => option name (some (String.ofList value))
      | value => option name (some (String.ofList value))
    else option name none

/-- What an argument is on its own. -/
def ofString (text : String) : Argument :=
  match text.toList with
  | ['-', '-'] => operandsOnly
  | '-' :: '-' :: long => ofLong long
  | '-' :: letter :: behind => ofShort letter behind
  | _ => operand text

end Argument

/-- Why the arguments cannot be followed. -/
inductive UsageError where
  | unknownArgument (argument : String)
  | missingValue (option : OptionName)
  | unwantedValue (option : OptionName)
  | invalidValue (option : OptionName) (value : String)
  | emptyInput
  | repeated (option : OptionName)
  | missingPath
deriving Repr, DecidableEq

/-- What the arguments ask for. -/
inductive Request where
  | run (options : Options)
  | help
  | version
deriving Repr, DecidableEq

/-- The options given so far. -/
structure Draft where
  paths : List String := []
  mode : Option Mode := none
  pretty : Bool := false
  indent : Option Nat := none
  maxDepth : Option Nat := none
  output : Option String := none
  input : Option String := none
deriving Repr

namespace Draft

/-- Sizes are below this bound, `2 ^ 64`. -/
def sizeBound : Nat := 18446744073709551616

/-- The size that a text of digits spells; a plus may stand in front. -/
def size? (text : String) : Option Nat :=
  let digits := match text.toList with
    | '+' :: rest => rest
    | all => all
  if digits ≠ [] ∧ digits.all Decimal.isDigit ∧ Decimal.natOfDigits digits < sizeBound then
    some (Decimal.natOfDigits digits)
  else none

/-- Takes in the value of an option that may be given once. -/
def once {α : Type} (name : OptionName) (before : Option α) (value : String)
    (read : String → Option α) : Except UsageError α :=
  match read value with
  | none => .error (.invalidValue name value)
  | some given => match before with
    | some _ => .error (.repeated name)
    | none => .ok given

/-- A text with characters. -/
def nonempty? (text : String) : Option String := if text = "" then none else some text

/-- Takes in an option with its value. -/
def give (draft : Draft) (name : OptionName) (value : String) : Except UsageError Draft :=
  match name with
  | .path => .ok { draft with paths := draft.paths ++ [value] }
  | .mode => (once name draft.mode value Mode.ofName?).map fun mode =>
      { draft with mode := some mode }
  | .indent => (once name draft.indent value size?).map fun width =>
      { draft with indent := some width }
  | .maxDepth => (once name draft.maxDepth value size?).map fun depth =>
      { draft with maxDepth := some depth }
  | .output => (once name draft.output value nonempty?).map fun file =>
      { draft with output := some file }
  | .pretty | .help | .version => .error (.unwantedValue name)

/-- Takes in an operand. -/
def operand (draft : Draft) (value : String) : Except UsageError Draft :=
  match draft.input with
  | some _ => .error (.unknownArgument value)
  | none => if value = "" then .error .emptyInput else .ok { draft with input := some value }

/-- Takes in operands only. -/
def operands (draft : Draft) : List String → Except UsageError Draft
  | [] => .ok draft
  | value :: rest => match draft.operand value with
    | .error error => .error error
    | .ok draft => draft.operands rest

/-- What the options given ask for, once all arguments are read. -/
def finish (draft : Draft) : Except UsageError Request :=
  if draft.paths = [] then .error .missingPath
  else
    let usual : Limits := {}
    .ok (.run {
      paths := draft.paths
      mode := draft.mode.getD .nodes
      layout :=
        if draft.pretty then .indented (draft.indent.getD Layout.defaultWidth) else .compact
      limits := { usual with maxDepth := draft.maxDepth.getD usual.maxDepth }
      input := draft.input
      output := draft.output })

/-- Reads the arguments from here on. -/
def readOn (draft : Draft) : List String → Except UsageError Request
  | [] => draft.finish
  | argument :: rest => match Argument.ofString argument with
    | .unknown => .error (.unknownArgument argument)
    | .operandsOnly => match draft.operands rest with
      | .error error => .error error
      | .ok draft => draft.finish
    | .operand value => match draft.operand value with
      | .error error => .error error
      | .ok draft => draft.readOn rest
    | .option name (some value) => match draft.give name value with
      | .error error => .error error
      | .ok draft => draft.readOn rest
    | .option .help none => .ok .help
    | .option .version none => .ok .version
    | .option .pretty none =>
      if draft.pretty then .error (.repeated .pretty)
      else { draft with pretty := true }.readOn rest
    | .option name none => match rest with
      | [] => .error (.missingValue name)
      | next :: rest => match Argument.ofString next with
        | .operand value => match draft.give name value with
          | .error error => .error error
          | .ok draft => draft.readOn rest
        | _ => .error (.missingValue name)

end Draft

/-- What the arguments ask for, or the first fault in them. -/
def Request.ofArguments (arguments : List String) : Except UsageError Request :=
  Draft.readOn {} arguments

end TagPath
