import TagPath.Document.Printer
import TagPath.Text.Size

/-! # Layout

A tree may be written over several lines.  An element with children, none of which
is a text, has its tags on lines of their own, with its children one level further
in between; every other node stays on one line in its written form, since a break
beside a text could be read back as part of it.  A line is kept as its level and
its content; how many spaces make a level is decided when lines are put together.
There may be more spaces than can be held: `renderIndented` says which text is asked
for, and `renderIndented?` makes it, line by line, if it can be made.
-/
namespace TagPath
open Text

/-- A line of a layout. -/
structure Line where
  /-- How many levels the line is moved in. -/
  level : Nat
  content : List Char
deriving Repr, DecidableEq

/-- The characters of a line, with `width` spaces for each level, however many these are. -/
def Line.indented (width : Nat) (line : Line) : List Char :=
  List.replicate (line.level * width) ' ' ++ line.content

/-- The text of a line, if its spaces and then the whole line can be held. -/
def Line.indented? (width : Nat) (line : Line) : Option String :=
  (spaces? (line.level * width)).bind fun pad => held? (pad ++ String.ofList line.content)

namespace Node

/-- Whether an element with these children is written over several lines. -/
def breaksOver (children : List Node) : Bool :=
  !children.isEmpty && !children.any isText

mutual

/-- The lines of a node that stands at the given level. -/
def lines (level : Nat) : Node → List Line
  | element name children =>
    if breaksOver children then
      ⟨level, openingTag name.toList⟩ :: linesOfAll (level + 1) children ++
        [⟨level, closingTag name.toList⟩]
    else
      [⟨level, (element name children).written⟩]
  | text content => [⟨level, content.toList⟩]

/-- The lines of some nodes of one level, one after the other. -/
def linesOfAll (level : Nat) : List Node → List Line
  | [] => []
  | node :: rest => lines level node ++ linesOfAll level rest

end

/-- The characters of a node over several lines. -/
def laidOut (width : Nat) (node : Node) : List Char :=
  List.intercalate ['\n'] ((node.lines 0).map (Line.indented width))

/-- A node over several lines, with `width` spaces for each level. -/
def renderIndented (width : Nat) (node : Node) : String := String.ofList (node.laidOut width)

/-- A node over several lines, if each line and then the whole text can be held. -/
def renderIndented? (width : Nat) (node : Node) : Option String :=
  ((node.lines 0).mapM (Line.indented? width)).bind fun lines =>
    held? ("\n".intercalate lines)

mutual

/-- Nothing of the written form is lost: the lines' contents joined are just that. -/
theorem flatMap_content_lines (level : Nat) (node : Node) :
    (node.lines level).flatMap (·.content) = node.written := by
  match node with
  | text content => simp [lines]
  | element name children =>
    have h := flatMap_content_linesOfAll (level + 1) children
    rw [lines]
    split <;> simp [h]

/-- The same for several nodes of one level. -/
theorem flatMap_content_linesOfAll (level : Nat) (nodes : List Node) :
    (linesOfAll level nodes).flatMap (·.content) = writtenAll nodes := by
  match nodes with
  | [] => rfl
  | node :: rest =>
    rw [linesOfAll, List.flatMap_append, flatMap_content_lines level node,
      flatMap_content_linesOfAll level rest, writtenAll_cons]

end

end Node

/-- How a node is written out. -/
inductive Layout where
  /-- In its written form. -/
  | compact
  /-- Over several lines, with this many spaces for each level. -/
  | indented (width : Nat)
deriving Repr, DecidableEq

/-- How many spaces a level has where nobody asks for another number. -/
def Layout.defaultWidth : Nat := 2

/-- A node written out in a layout. -/
def Layout.render : Layout → Node → String
  | compact, node => node.render
  | indented width, node => node.renderIndented width

/-- A node written out in a layout, if the text can be held. -/
def Layout.render? : Layout → Node → Option String
  | compact, node => held? node.render
  | indented width, node => node.renderIndented? width

end TagPath
