import TagPath.Text.Cut
import TagPath.Document.Node
import TagPath.Path.Error

/-! # Predicates

A predicate `[child=value]` holds on a node whose first child of that name has a
first text with exactly those characters.  Its text is cut at the first `=`; both
sides must have characters and the right side no further `=`.  Sides are taken as
they stand, with blanks and brackets.
-/
namespace TagPath
open Text

/-- The condition that the first child called `child` has the first text `value`. -/
structure Predicate where
  child : String
  value : String
deriving Repr, DecidableEq, Inhabited

namespace Predicate

/-- The text that the condition compares, if the node has such a child and the child
such a text. -/
def found? (predicate : Predicate) (node : Node) : Option String :=
  match node.child? predicate.child with
  | none => none
  | some child => match child.textNode? with
    | none => none
    | some text => text.content?

/-- Whether the condition holds on a node. -/
def holds (predicate : Predicate) (node : Node) : Bool :=
  predicate.found? node == some predicate.value

/-- The written form of a predicate. -/
def written (predicate : Predicate) : List Char :=
  '[' :: (predicate.child.toList ++ '=' :: (predicate.value.toList ++ [']']))

/-- A predicate as text, with its brackets. -/
def render (predicate : Predicate) : String := String.ofList predicate.written

/-- Reads an equality: two sides with characters, parted by the only `=`. -/
def readEquality (text : List Char) : Except PathError Predicate :=
  match cut? ['='] text with
  | none => .error (.malformedEquality (String.ofList text))
  | some (child, value) =>
    if child = [] ∨ value = [] ∨ '=' ∈ value then
      .error (.malformedEquality (String.ofList text))
    else
      .ok ⟨String.ofList child, String.ofList value⟩

/-- Reads what stands between two brackets.  Equalities are the only kind there is,
and an `=` marks a text as one of them. -/
def readInside (text : List Char) : Except PathError Predicate :=
  if '=' ∈ text then readEquality text else .error (.unknownPredicate (String.ofList text))

theorem holds_iff {predicate : Predicate} {node : Node} :
    predicate.holds node = true ↔ predicate.found? node = some predicate.value := by
  simp [holds]

/-- An equality is read exactly from two sides with characters and without `=`. -/
theorem readEquality_eq_ok_iff {text : List Char} {predicate : Predicate} :
    readEquality text = .ok predicate ↔
      text = predicate.child.toList ++ '=' :: predicate.value.toList ∧
      predicate.child ≠ "" ∧ predicate.value ≠ "" ∧
      '=' ∉ predicate.child.toList ∧ '=' ∉ predicate.value.toList := by
  obtain ⟨child, value⟩ := predicate
  simp only [ne_eq, ← String.toList_eq_nil_iff]
  unfold readEquality
  constructor
  · intro h
    split at h
    · simp at h
    · rename_i left right hc
      obtain ⟨rfl, hl⟩ := cut?_singleton_eq_some_iff.1 hc
      split at h
      · simp at h
      · rename_i hn
        simp only [Except.ok.injEq, mk.injEq] at h
        obtain ⟨rfl, rfl⟩ := h
        simp only [not_or] at hn
        simp [hl, hn]
  · rintro ⟨rfl, hc, hv, hce, hve⟩
    rw [cut?_singleton_append hce]
    simp [hc, hv, hve]

/-- Between brackets, too, an equality is the only thing that is read. -/
theorem readInside_eq_ok_iff {text : List Char} {predicate : Predicate} :
    readInside text = .ok predicate ↔ readEquality text = .ok predicate := by
  unfold readInside
  split
  · rfl
  · rename_i hn
    have : cut? ['='] text = none := cut?_singleton_eq_none_iff.2 hn
    simp [readEquality, this]

end Predicate
end TagPath
