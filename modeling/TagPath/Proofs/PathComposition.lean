import Mathlib
import TagPath.Path.Basic

/-! # Paths put together

Two sources of paths with a separator between them make a third one.  Separators at the
end of a source are dropped, so the first source must not end with one, and the second
must hold something else; then the third has the parts of the first and behind them those
of the second (`stepSources_append_separator`).  Steps are read part by part, so what is
read of the whole is settled by what is read of the two (`readSteps_append`): **the steps
of one follow the steps of the other, and of two faults the one on the left counts**
(`Path.read_composition`).
-/
namespace TagPath
open Text

/-! ## Parts -/

/-- A separator that stays parts the source. -/
theorem stepSources_append_separator {source rest : List Char}
    (hs : source.getLast? ≠ some stepSeparator) (hr : ∃ c ∈ rest, c ≠ stepSeparator) :
    stepSources (source ++ stepSeparator :: rest) = stepSources source ++ stepSources rest := by
  have hrest : dropEndWhile (· == stepSeparator) (source ++ stepSeparator :: rest) =
      source ++ stepSeparator :: dropEndWhile (· == stepSeparator) rest := by
    obtain ⟨c, hc, hne⟩ := hr
    have hstays : ∃ c ∈ rest, (c == stepSeparator) = false :=
      ⟨c, hc, beq_eq_false_iff_ne.mpr hne⟩
    have := dropEndWhile_append_of_exists hstays (source ++ [stepSeparator])
    rwa [List.append_assoc, List.append_assoc] at this
  simp only [stepSources, dropEndWhile_separator hs, hrest, List.splitOn_eq_splitOnP]
  exact List.splitOnP_append_cons _ _ (beq_self_eq_true _)

/-- Separators at the end of a source do not matter. -/
theorem stepSources_append_replicate (source : List Char) (count : Nat) :
    stepSources (source ++ List.replicate count stepSeparator) = stepSources source := by
  have hrun : ∀ c ∈ List.replicate count stepSeparator, (c == stepSeparator) = true := by
    intro c hc
    rw [List.eq_of_mem_replicate hc, beq_self_eq_true]
  rw [stepSources, dropEndWhile_append_of_all hrun, stepSources]

/-! ## Steps -/

/-- Steps are read from the left: those of the second row only if all of the first were
read. -/
theorem readSteps_append (first second : List (List Char)) :
    readSteps (first ++ second) =
      match readSteps first with
      | .error error => .error error
      | .ok steps => (readSteps second).map (steps ++ ·) := by
  induction first with
  | nil =>
    cases h : readSteps second <;> simp [readSteps, h, Except.map]
  | cons source first ih =>
    rw [List.cons_append, readSteps, ih, readSteps]
    cases Step.read source with
    | error error => rfl
    | ok step =>
      cases readSteps first with
      | error error => rfl
      | ok steps => cases readSteps second <;> rfl

/-! ## Paths -/

namespace Path

/-- The path that goes on from where the first one leads along the second one. -/
def followedBy (first second : Path) : Path :=
  ⟨first.steps ++ second.steps, List.append_ne_nil_of_left_ne_nil first.steps_ne_nil _⟩

@[simp] theorem steps_followedBy (first second : Path) :
    (first.followedBy second).steps = first.steps ++ second.steps := rfl

/-- A source is compiled as its parts are. -/
theorem ofChars_congr {source source' : List Char} (h : stepSources source = stepSources source') :
    ofChars source = ofChars source' := by
  cases ho : ofChars source' with
  | error error => rw [ofChars_eq_error_iff, h, ← ofChars_eq_error_iff, ho]
  | ok path => rw [ofChars_eq_ok_iff, h, ← ofChars_eq_ok_iff, ho]

/-- What two sources are compiled to decides what they are compiled to together. -/
theorem ofChars_append_separator {source rest : List Char}
    (hs : source.getLast? ≠ some stepSeparator) (hr : ∃ c ∈ rest, c ≠ stepSeparator) :
    ofChars (source ++ stepSeparator :: rest) =
      match ofChars source with
      | .error error => .error error
      | .ok first => (ofChars rest).map first.followedBy := by
  have happend := readSteps_append (stepSources source) (stepSources rest)
  rw [← stepSources_append_separator hs hr] at happend
  cases hsource : ofChars source with
  | error error =>
    rw [ofChars_eq_error_iff] at hsource ⊢
    rw [happend, hsource]
  | ok first =>
    rw [ofChars_eq_ok_iff] at hsource
    rw [hsource] at happend
    cases hrest : ofChars rest with
    | error error =>
      rw [ofChars_eq_error_iff] at hrest
      rw [hrest] at happend
      exact ofChars_eq_error_iff.mpr happend
    | ok second =>
      rw [ofChars_eq_ok_iff] at hrest
      rw [hrest] at happend
      exact ofChars_eq_ok_iff.mpr happend

/-- **Compiling goes part by part, from the left.**  A source that does not end with a
separator and one that holds more than separators are compiled together exactly if both
can be compiled, to the steps of the first and then those of the second; if not, the
fault is the one of the first source, or that of the second if the first has none.
Separators at the end change nothing. -/
theorem read_composition :
    (∀ source rest : String, source.toList.getLast? ≠ some '/' → (∃ c ∈ rest.toList, c ≠ '/') →
      (∀ path, Path.read (some (source ++ "/" ++ rest)) = .ok path ↔
        ∃ first second, Path.read (some source) = .ok first ∧
          Path.read (some rest) = .ok second ∧ path = first.followedBy second) ∧
      ∀ error, Path.read (some (source ++ "/" ++ rest)) = .error error ↔
        Path.read (some source) = .error error ∨
          (∃ first, Path.read (some source) = .ok first) ∧
            Path.read (some rest) = .error error) ∧
    ∀ (source : String) (count : Nat),
      Path.read (some (source ++ String.ofList (List.replicate count '/'))) =
        Path.read (some source) := by
  refine ⟨fun source rest hs hr => ?_, fun source count => ?_⟩
  · have hread : Path.read (some (source ++ "/" ++ rest)) =
        match Path.read (some source) with
        | .error error => .error error
        | .ok first => (Path.read (some rest)).map first.followedBy := by
      have htext : (source ++ "/" ++ rest).toList =
          source.toList ++ stepSeparator :: rest.toList := by
        simp [stepSeparator]
      simp only [Path.read, htext]
      exact ofChars_append_separator hs hr
    rw [hread]
    cases Path.read (some source) with
    | error fault => simp
    | ok first =>
      cases Path.read (some rest) with
      | error fault => simp [Except.map]
      | ok second => simp [Except.map, eq_comm]
  · simp only [Path.read, String.toList_append, String.toList_ofList]
    exact ofChars_congr (stepSources_append_replicate source.toList count)

/-- The empty source is a step of the empty name, which goes before what follows it; of
the two faults in the last source, the first counts. -/
theorem read_composition_leftmost :
    (∃ path, Path.read (some ("" ++ "/" ++ "a//b/")) = .ok path ∧
      path.steps = [.named "" [], .named "a" [], .named "" [], .named "b" []]) ∧
    Path.read (some ("a]" ++ "/" ++ "b[")) = .error (.bracketInName "a]") ∧
    Path.read (some ("a" ++ "/" ++ "b[")) = .error .predicateEnd := by
  have hfirst : Path.read (some "") = .ok ⟨[.named "" []], by simp⟩ :=
    ofChars_eq_ok_iff.mpr (by cbv)
  have hsecond : Path.read (some "a//b/") =
      .ok ⟨[.named "a" [], .named "" [], .named "b" []], by simp⟩ :=
    ofChars_eq_ok_iff.mpr (by cbv)
  have ha : Path.read (some "a") = .ok ⟨[.named "a" []], by simp⟩ :=
    ofChars_eq_ok_iff.mpr (by cbv)
  have hname : Path.read (some "a]") = .error (.bracketInName "a]") :=
    (@ofChars_eq_error_iff "a]".toList _).mpr (by cbv)
  have hend : Path.read (some "b[") = .error .predicateEnd :=
    (@ofChars_eq_error_iff "b[".toList _).mpr (by cbv)
  refine ⟨⟨_, ((read_composition.1 "" "a//b/" (by simp) (by simp)).1 _).mpr
    ⟨_, _, hfirst, hsecond, rfl⟩, rfl⟩, ?_, ?_⟩
  · exact ((read_composition.1 "a]" "b[" (by simp) (by simp)).2 _).mpr (.inl hname)
  · exact ((read_composition.1 "a" "b[" (by simp) (by simp)).2 _).mpr (.inr ⟨⟨_, ha⟩, hend⟩)

end Path
end TagPath
