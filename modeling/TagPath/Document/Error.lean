/-! # Document errors

Why a document cannot be read.  Each cause carries what its message names.
-/
namespace TagPath

/-- Why a document cannot be read. -/
inductive DocumentError where
  /-- There is no document at all. -/
  | missingInput
  /-- A `<` has no `>` after it. -/
  | unclosedBracket
  /-- An element is opened and its closing tag does not follow. -/
  | missingClosingTag (name : String)
  /-- Elements are nested deeper than the limit. -/
  | maxDepthExceeded (limit : Nat)
  /-- The document has more bytes than the limit. -/
  | maxSizeExceeded (limit : Nat)
deriving Repr, DecidableEq

namespace DocumentError

/-- The cause in words. -/
def reason : DocumentError → String
  | missingInput => "input missing"
  | unclosedBracket => "closing bracket not found"
  | missingClosingTag name => "closing element " ++ name ++ " not found"
  | maxDepthExceeded limit => "max depth exceeded: " ++ toString limit
  | maxSizeExceeded limit => "max size exceeded: " ++ toString limit

/-- The cause in words, with what was being read. -/
def message (error : DocumentError) : String := "xml parse error: " ++ error.reason

end DocumentError
end TagPath
