import TagPath.Text.Trim
import TagPath.Path.Predicate

/-! # Steps

A step of a path asks for nodes of a name that meet its predicates, or for texts.
In writing, the name is all that stands before the first `[`, blanks included; a run
of predicates in brackets follows, with blanks allowed behind each bracket and at
the inner sides of each pair.  The name `text()` asks for texts: predicates may
follow it and are read, but they mean nothing.
-/
namespace TagPath
open Text

/-- One step of a path. -/
inductive Step where
  /-- Nodes that answer to `name` and meet all predicates. -/
  | named (name : String) (predicates : List Predicate)
  /-- Texts. -/
  | text
deriving Repr, DecidableEq, Inhabited

/-- Reads a run of predicates, each in its pair of brackets. -/
def readPredicates : List Char → Except PathError (List Predicate)
  | [] => .ok []
  | '[' :: group => match _h : cut? [']'] group with
    | none => .error .predicateEnd
    | some (inside, behind) => match Predicate.readInside (trim inside) with
      | .error error => .error error
      | .ok predicate => match readPredicates (trimStart behind) with
        | .error error => .error error
        | .ok predicates => .ok (predicate :: predicates)
  | _ => .error .predicateStart
termination_by groups => groups.length
decreasing_by
  have := length_of_cut? ‹_›
  have := length_trimStart_le behind
  simp only [List.length_cons]
  omega

@[simp] theorem readPredicates_nil : readPredicates [] = .ok [] := by
  rw [readPredicates]

/-- Behind an opening bracket stands a predicate up to the next closing bracket, and
then again a run of predicates. -/
theorem readPredicates_bracket (group : List Char) :
    readPredicates ('[' :: group) =
      match cut? [']'] group with
      | none => .error .predicateEnd
      | some (inside, behind) => match Predicate.readInside (trim inside) with
        | .error error => .error error
        | .ok predicate => match readPredicates (trimStart behind) with
          | .error error => .error error
          | .ok predicates => .ok (predicate :: predicates) := by
  rw [readPredicates]
  split <;> simp_all

/-- Where a bracket should open, nothing else may stand. -/
theorem readPredicates_of_ne {c : Char} (h : c ≠ '[') (rest : List Char) :
    readPredicates (c :: rest) = .error .predicateStart := by
  rw [readPredicates]
  · simp
  · rintro group he
    exact h (List.cons.inj he).1

namespace Step

/-- The name that asks for texts. -/
def textName : List Char := ['t', 'e', 'x', 't', '(', ')']

/-- The step of a name with predicates; the name `text()` drops them. -/
def ofName (name : List Char) (predicates : List Predicate) : Step :=
  if name = textName then text else named (String.ofList name) predicates

/-- Reads a step.  A fault in the name comes before all faults behind it. -/
def read (source : List Char) : Except PathError Step :=
  let name := source.takeWhile (· != '[')
  let groups := source.dropWhile (· != '[')
  if ']' ∈ name then .error (.bracketInName (String.ofList name))
  else match readPredicates groups with
    | .error error => .error error
    | .ok predicates => .ok (ofName name predicates)

/-- The name the step asks for; a step for texts has none. -/
def name? : Step → Option String
  | named name _ => some name
  | text => none

/-- The predicates of the step; a step for texts has none. -/
def predicates : Step → List Predicate
  | named _ predicates => predicates
  | text => []

/-- Whether the step asks for texts. -/
def isText : Step → Bool
  | named _ _ => false
  | text => true

/-- Whether a node is one of those the step asks for. -/
def admits (step : Step) (node : Node) : Bool :=
  match step with
  | named name predicates => node.name == name && predicates.all (·.holds node)
  | text => node.isText

/-- The written form of a step. -/
def written : Step → List Char
  | named name predicates => name.toList ++ predicates.flatMap Predicate.written
  | text => textName

/-- A step as text. -/
def render (step : Step) : String := String.ofList step.written

end Step
end TagPath
