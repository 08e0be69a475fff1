import TagPath.Number.Grouped
import TagPath.Path.Evaluation

/-! # Extraction

What a path yields as nodes, texts and numbers.  The single answers look at the
first kept match only: if it is no text, or a text that is no number, there is no
second try.  The lists pass over the matches that are no texts or no numbers.
-/
namespace TagPath.Path

/-- The first kept match. -/
def any? (path : Path) (root : Node) : Option Place := (path.evaluate root).head?

/-- The texts among the kept matches. -/
def strings (path : Path) (root : Node) : List String :=
  (path.evaluate root).filterMap (·.node.content?)

/-- The numbers that texts among the kept matches stand for. -/
def numbers (path : Path) (root : Node) : List Float := (path.strings root).filterMap readNumber

/-- The first kept match's text, if it is one. -/
def anyText? (path : Path) (root : Node) : Option String :=
  (path.any? root).bind (·.node.content?)

/-- The first kept match's text; the empty text if there is none. -/
def string (path : Path) (root : Node) : String := (path.anyText? root).getD ""

/-- The number that the first kept match's text stands for. -/
def number? (path : Path) (root : Node) : Option Float := (path.anyText? root).bind readNumber

end TagPath.Path
