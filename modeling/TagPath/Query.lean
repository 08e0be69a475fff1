import TagPath.Document.Reader
import TagPath.Path.Evaluation

/-! # Queries

A query asks a document for the nodes that a path matches.  The document is read
first, with the usual limits; so if both texts have a fault, the document's is told.
-/
namespace TagPath

/-- What is wrong with a query. -/
inductive QueryError where
  | document (cause : DocumentError)
  | path (cause : PathError)
deriving Repr, DecidableEq

namespace QueryError

/-- The cause in words. -/
def reason : QueryError → String
  | document cause => cause.reason
  | path cause => cause.reason

/-- The cause in words, with what was being read. -/
def message : QueryError → String
  | document cause => cause.message
  | path cause => cause.message

end QueryError

/-- The nodes of a document that a path matches. -/
def query (document path : String) : Except QueryError (List Node) :=
  match Node.read {} (some document) with
  | .error cause => .error (.document cause)
  | .ok root => match Path.read (some path) with
    | .error cause => .error (.path cause)
    | .ok compiled => .ok ((compiled.evaluate root).map (·.node))

end TagPath
