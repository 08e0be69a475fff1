import Mathlib
import TagPath.Proofs.PathSpelling

/-! # Steps made by hand

A step need not come from a source.  Its name and the sides of its predicates can be any
texts, and as nothing is escaped in writing, such a step may be written as something that
is read as another step or cannot be read.  The steps that are free of such texts are the
expressible ones (`Step.Expressible`).

Whatever a source is read as is expressible (`SpellsStep.expressible`), so no other step
is ever read back as itself, from its written form or from any other source
(`Step.exists_read_iff_expressible`).  The written form of an expressible step spells the
step (`Step.Expressible.spells`).  **So a step survives writing exactly if it is
expressible** (`Step.read_render_iff_expressible`).
-/
namespace TagPath

/-- A step that writing keeps: one for texts, or one of a name that holds no bracket and
does not ask for texts, with legible predicates. -/
def Step.Expressible : Step → Prop
  | .text => True
  | .named name predicates =>
    '[' ∉ name.toList ∧ ']' ∉ name.toList ∧ name ≠ "text()" ∧
      ∀ predicate ∈ predicates, predicate.Legible

theorem Group.legible_of_forall₂ {groups : List Group} {predicates : List Predicate}
    (h : List.Forall₂ Group.Spells groups predicates) :
    ∀ predicate ∈ predicates, predicate.Legible := by
  induction h with
  | nil => simp
  | cons hs _ ih => exact List.forall_mem_cons.mpr ⟨hs.1, ih⟩

/-- A source tells only of expressible steps. -/
theorem SpellsStep.expressible {source : List Char} {step : Step} (h : SpellsStep source step) :
    step.Expressible := by
  obtain ⟨name, groups, predicates, -, hn, hclosing, hall, rfl⟩ := h
  split
  · trivial
  · rename_i ht
    have ht' : String.ofList name ≠ "text()" := by
      intro he
      rw [← he, String.toList_ofList] at ht
      exact ht rfl
    refine ⟨?_, ?_, ht', Group.legible_of_forall₂ hall⟩
    · rwa [String.toList_ofList]
    · rwa [String.toList_ofList]

namespace Step

/-- An expressible step is spelled by its written form. -/
theorem Expressible.spells {step : Step} (h : step.Expressible) : SpellsStep step.written step := by
  cases step with
  | text => exact SpellsStep.text
  | named name predicates =>
    obtain ⟨hn, hclosing, ht, hp⟩ := h
    exact SpellsStep.named hn hclosing ht hp

/-- A step is what some source is read as exactly if it is expressible. -/
theorem exists_read_iff_expressible {step : Step} :
    (∃ source, Step.read source = .ok step) ↔ step.Expressible := by
  constructor
  · rintro ⟨source, hread⟩
    exact (read_eq_ok_iff.mp hread).expressible
  · intro h
    exact ⟨step.written, read_eq_ok_iff.mpr h.spells⟩

/-- **A step is read back from its written form exactly if it is expressible.** -/
theorem read_render_iff_expressible (step : Step) :
    Step.read step.render.toList = .ok step ↔ step.Expressible := by
  rw [render, String.toList_ofList]
  constructor
  · intro hread
    exact exists_read_iff_expressible.mp ⟨_, hread⟩
  · intro h
    exact read_eq_ok_iff.mpr h.spells

/-- A bracket that opens in a side is kept; one that opens in the name begins a predicate. -/
example : Step.read (named "a" [⟨"b[", " 1"⟩]).written = .ok (named "a" [⟨"b[", " 1"⟩]) ∧
    Step.read (named "a[b=1]" []).written = .ok (named "a" [⟨"b", "1"⟩]) := by
  constructor <;> cbv

end Step
end TagPath
