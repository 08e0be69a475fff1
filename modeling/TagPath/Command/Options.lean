import TagPath.Document.Layout
import TagPath.Document.Limits
import TagPath.Number.Positional
import TagPath.Path.Extraction

/-! # Options of the command

What the command is asked to do: which paths to evaluate, what to report of their
matches, how to write nodes, and where the document comes from and the answer goes.
-/
namespace TagPath
open Text

/-- What is reported of the matches of a path. -/
inductive Mode where
  /-- Every match that is kept, written out. -/
  | nodes
  /-- The first match, written out. -/
  | any
  /-- The first match's text, or an empty line. -/
  | string
  /-- The first match's number. -/
  | number
  /-- The texts among the matches. -/
  | strings
  /-- The numbers among the matches. -/
  | numbers
deriving Repr, DecidableEq

namespace Mode

/-- The mode of a name. -/
def ofName? : String → Option Mode
  | "nodes" => some nodes
  | "any" => some any
  | "string" => some string
  | "number" => some number
  | "strings" => some strings
  | "numbers" => some numbers
  | _ => none

/-- What is reported of a path's matches in a tree, entry by entry. -/
def report (mode : Mode) (layout : Layout) (path : Path) (root : Node) : List String :=
  match mode with
  | nodes => (path.evaluate root).map fun place => layout.render place.node
  | any => (path.any? root).toList.map fun place => layout.render place.node
  | string => [path.string root]
  | number => (path.number? root).toList.map renderNumber
  | strings => path.strings root
  | numbers => (path.numbers root).map renderNumber

/-- What is reported of a path's matches, if each entry can be held. -/
def report? (mode : Mode) (layout : Layout) (path : Path) (root : Node) :
    Option (List String) :=
  match mode with
  | nodes => (path.evaluate root).mapM fun place => layout.render? place.node
  | any => (path.any? root).toList.mapM fun place => layout.render? place.node
  | string | number | strings | numbers => (mode.report layout path root).mapM held?

end Mode

/-- What the command is asked to do. -/
structure Options where
  /-- The texts of the paths, in the order in which they are answered. -/
  paths : List String
  mode : Mode := .nodes
  layout : Layout := .compact
  limits : Limits := {}
  /-- The file of the document, if it does not come by standard input. -/
  input : Option String := none
  /-- The file of the answer, if it does not go to standard output. -/
  output : Option String := none
deriving Repr, DecidableEq

end TagPath
