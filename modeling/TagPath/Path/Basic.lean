import TagPath.Path.Step

/-! # Paths

A path is one step or more, written with a `/` between each two.  Separators at the
end are dropped; elsewhere two separators in a row make a step of the empty name.
The empty text and a text of separators alone are one such step.
-/
namespace TagPath
open Text

/-- A compiled path. -/
structure Path where
  steps : List Step
  /-- There is a first step. -/
  steps_ne_nil : steps ≠ []
deriving Repr, DecidableEq

/-- The separator of steps. -/
def stepSeparator : Char := '/'

/-- The texts of the steps of a path. -/
def stepSources (source : List Char) : List (List Char) :=
  (dropEndWhile (· == stepSeparator) source).splitOn stepSeparator

/-- A text that does not end with a separator keeps its end. -/
theorem dropEndWhile_separator {text : List Char} (h : text.getLast? ≠ some stepSeparator) :
    dropEndWhile (· == stepSeparator) text = text := by
  refine dropEndWhile_eq_self fun c hc => ?_
  rw [beq_eq_false_iff_ne]
  rintro rfl
  exact h hc

/-- Reads steps from left to right, up to the first fault. -/
def readSteps : List (List Char) → Except PathError (List Step)
  | [] => .ok []
  | source :: rest => match Step.read source with
    | .error error => .error error
    | .ok step => match readSteps rest with
      | .error error => .error error
      | .ok steps => .ok (step :: steps)

/-- As many steps are read as there are texts. -/
theorem length_of_readSteps {sources : List (List Char)} {steps : List Step}
    (h : readSteps sources = .ok steps) : steps.length = sources.length := by
  induction sources generalizing steps with
  | nil => simp only [readSteps, Except.ok.injEq] at h; simp [← h]
  | cons source rest ih =>
    unfold readSteps at h
    split at h
    · simp at h
    · split at h
      · simp at h
      · rename_i steps' hs
        simp only [Except.ok.injEq] at h
        simp [← h, ih hs]

theorem stepSources_ne_nil (source : List Char) : stepSources source ≠ [] :=
  List.splitOn_ne_nil _ _

namespace Path

@[ext] theorem ext {left right : Path} (h : left.steps = right.steps) : left = right := by
  cases left; cases right; simpa using h

/-- Compiles the text of a path. -/
def ofChars (source : List Char) : Except PathError Path :=
  match h : readSteps (stepSources source) with
  | .error error => .error error
  | .ok steps => .ok ⟨steps, by
      rintro rfl
      exact stepSources_ne_nil source (List.length_eq_zero_iff.1 (length_of_readSteps h).symm)⟩

/-- Compiles a path, which may be missing. -/
def read : Option String → Except PathError Path
  | none => .error .missingInput
  | some source => ofChars source.toList

/-- The written form of a path. -/
def written (path : Path) : List Char :=
  List.intercalate [stepSeparator] (path.steps.map Step.written)

/-- A path as text. -/
def render (path : Path) : String := String.ofList path.written

/-- A path is compiled exactly if its steps are. -/
theorem ofChars_eq_ok_iff {source : List Char} {path : Path} :
    ofChars source = .ok path ↔ readSteps (stepSources source) = .ok path.steps := by
  unfold ofChars
  split
  · rename_i error h; simp [h]
  · rename_i steps h; simp [h, Path.ext_iff]

/-- A path is refused exactly for the first fault in its steps. -/
theorem ofChars_eq_error_iff {source : List Char} {error : PathError} :
    ofChars source = .error error ↔ readSteps (stepSources source) = .error error := by
  unfold ofChars
  split
  · rename_i h; simp [h]
  · rename_i h; simp [h]

end Path
end TagPath
