import TagPath.Document.Place
import TagPath.Document.Cover
import TagPath.Path.Basic

/-! # Evaluation

A path goes down from the root, one level for each step.  A node stays on the way
if the step of its level admits it; the nodes that the last step admits are the
matches.  A text has nothing below it, so a step for texts is the last one that
counts.  The walk carries along what it has kept so far: a match is put behind the
others when it is met, unless one of them covers it.
-/
namespace TagPath

/-- Keeps a place behind those kept before, unless one of them covers it. -/
def insertUncovered (kept : List Place) (place : Place) : List Place :=
  if kept.any (·.node.covers place.node) then kept else kept ++ [place]

/-- Walks along some steps at and below a place, and keeps the matches besides those
kept before. -/
def collect : List Step → Place → List Place → List Place
  | [], _, kept => kept
  | step :: rest, place, kept =>
    if step.admits place.node then
      if step.isText || rest.isEmpty then insertUncovered kept place
      else place.children.foldl (fun kept child => collect rest child kept) kept
    else kept

/-- The matches of a path that are kept: no kept one covers a later kept one. -/
def Path.evaluate (path : Path) (root : Node) : List Place :=
  collect path.steps (Place.root root) []

end TagPath
