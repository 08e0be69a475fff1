/-! # Path errors

Why the text of a path, of a step or of a predicate cannot be compiled.
-/
namespace TagPath

/-- Why a path cannot be compiled. -/
inductive PathError where
  /-- There is no path at all. -/
  | missingInput
  /-- The name of a step holds a `]`. -/
  | bracketInName (name : String)
  /-- Something other than a predicate follows a predicate. -/
  | predicateStart
  /-- A `[` has no `]` after it. -/
  | predicateEnd
  /-- The text between brackets is of no known kind. -/
  | unknownPredicate (text : String)
  /-- An equality has an empty side or more than two sides. -/
  | malformedEquality (text : String)
deriving Repr, DecidableEq

namespace PathError

/-- The cause in words. -/
def reason : PathError → String
  | missingInput => "input missing"
  | bracketInName name => "element name " ++ name ++ " contains ]"
  | predicateStart => "predicate does not start with ["
  | predicateEnd => "predicate does not end with ]"
  | unknownPredicate text => "could not parse predicate " ++ text
  | malformedEquality text => "equality must have exactly two non-empty members: " ++ text

/-- The cause in words, with what was being read. -/
def message (error : PathError) : String := "xpath parse error: " ++ error.reason

end PathError
end TagPath
