import Mathlib
import TagPath.Path.Basic
import TagPath.Proofs.StepGrammar

/-! # Written forms of paths

A path's text may hold more than its written form: separators at its end, blanks beside
brackets, predicates of a step for texts.  A source without any of these is neat
(`NeatPath`).  **What was compiled can be written down and compiled again, and the
written form is the source exactly if the source is neat**
(`Path.read_render_and_eq_iff_neat`).

The parts of a path between its separators hold no separator, and the last one is not
empty unless it is the only one (`AreParts`).  Such parts are found again when they are
joined (`stepSources_intercalate`), and what steps are written as has these properties
if what they were read from has them (`AreParts.map_written`).
-/
namespace TagPath
open Text

/-! ## Steps -/

/-- A group that is written as its predicate: no blank touches a bracket from inside or
stands behind the group. -/
structure Group.Neat (group : Group) : Prop where
  inside : Trimmed group.inside
  behind : ∀ c ∈ group.behind, isBlank c = false

/-- The source of a step that holds nothing but what the step is written as. -/
def NeatStep (source : List Char) : Prop :=
  ∃ name groups, source = name ++ groups.flatMap Group.written ∧ '[' ∉ name ∧
    (∀ group ∈ groups, group.Bounded ∧ group.Neat) ∧ (name = "text()".toList → groups = [])

/-- The source of a path that holds nothing but what the path is written as. -/
def NeatPath (source : List Char) : Prop :=
  source.getLast? ≠ some stepSeparator ∧ ∀ part ∈ source.splitOn stepSeparator, NeatStep part

namespace Group
variable {group : Group} {predicate : Predicate} {groups : List Group}
  {predicates : List Predicate}

/-- A group is the written form of its predicate exactly if it is neat. -/
theorem Spells.eq_ofPredicate_iff (h : group.Spells predicate) :
    group = ofPredicate predicate ↔ group.Neat := by
  obtain ⟨hl, hb, start, final, hs, hf, he⟩ := h
  constructor
  · rintro rfl
    exact ⟨hl.trimmed, fun c hc => absurd hc List.not_mem_nil⟩
  · rintro ⟨hi, hn⟩
    obtain ⟨inside, behind⟩ := group
    have hbehind : behind = [] := by
      apply List.eq_nil_iff_forall_not_mem.mpr
      intro c hc
      exact absurd ((hn c hc).symm.trans (hb c hc)) (by decide)
    have hinside : inside = predicate.inside := by
      have htrim := trim_append hs hf hl.trimmed.first
      rw [← he, hi.trim_eq, trimEnd_eq_self hl.trimmed.final] at htrim
      exact htrim
    rw [hbehind, hinside]
    rfl

theorem Spells.sublist (h : group.Spells predicate) :
    predicate.written.Sublist group.written := by
  obtain ⟨-, -, start, final, -, -, he⟩ := h
  rw [predicate.written_eq, written, he]
  refine List.Sublist.cons_cons _ (List.Sublist.append ?_ ?_)
  · exact (List.sublist_append_right _ _).trans (List.sublist_append_left _ _)
  · exact (List.nil_sublist _).cons_cons _

theorem flatMap_written_ofPredicate (predicates : List Predicate) :
    (predicates.map ofPredicate).flatMap written = predicates.flatMap Predicate.written := by
  rw [List.flatMap_map]
  exact congrArg (predicates.flatMap ·) (funext written_ofPredicate)

/-- The predicates that some groups spell can stand without blanks. -/
theorem forall₂_ofPredicate (h : List.Forall₂ Spells groups predicates) :
    List.Forall₂ Spells (predicates.map ofPredicate) predicates := by
  induction h with
  | nil => exact .nil
  | cons hs _ ih => exact .cons (spells_ofPredicate hs.1) ih

theorem bounded_of_forall₂ (h : List.Forall₂ Spells groups predicates) :
    ∀ group ∈ groups, group.Bounded := by
  induction h with
  | nil => simp
  | cons hs _ ih => exact List.forall_mem_cons.mpr ⟨hs.bounded, ih⟩

theorem sublist_of_forall₂ (h : List.Forall₂ Spells groups predicates) :
    (predicates.flatMap Predicate.written).Sublist (groups.flatMap written) := by
  induction h with
  | nil => exact List.Sublist.refl _
  | cons hs _ ih => exact hs.sublist.append ih

/-- Groups are the written forms of their predicates exactly if all of them are neat. -/
theorem eq_map_ofPredicate_iff (h : List.Forall₂ Spells groups predicates) :
    groups = predicates.map ofPredicate ↔ ∀ group ∈ groups, group.Neat := by
  induction h with
  | nil => simp
  | cons hs _ ih => rw [List.map_cons, List.cons.injEq, hs.eq_ofPredicate_iff, ih,
      List.forall_mem_cons]

/-- The same of the characters they take up. -/
theorem flatMap_written_eq_iff (h : List.Forall₂ Spells groups predicates) :
    predicates.flatMap Predicate.written = groups.flatMap written ↔
      ∀ group ∈ groups, group.Neat := by
  rw [← flatMap_written_ofPredicate, ← eq_map_ofPredicate_iff h]
  constructor
  · intro he
    exact (groups_inj (bounded_of_forall₂ (forall₂_ofPredicate h)) (bounded_of_forall₂ h) he).symm
  · intro he
    rw [← he]

end Group

namespace SpellsStep
variable {source : List Char} {step : Step}

theorem text : SpellsStep Step.text.written .text :=
  ⟨"text()".toList, [], [], rfl, by decide, by decide, .nil, rfl⟩

/-- A step that some source spells is spelled by its written form. -/
theorem self (h : SpellsStep source step) : SpellsStep step.written step := by
  obtain ⟨name, groups, predicates, -, hn, hclosing, hall, rfl⟩ := h
  split
  · exact text
  · rename_i ht
    refine ⟨name, predicates.map Group.ofPredicate, predicates, ?_, hn, hclosing,
      Group.forall₂_ofPredicate hall, (if_neg ht).symm⟩
    rw [Group.flatMap_written_ofPredicate, Step.written, String.toList_ofList]

/-- A name that is free of brackets and asks for no texts, with legible predicates, is
spelled by its written form. -/
theorem named {name : String} {predicates : List Predicate} (hn : '[' ∉ name.toList)
    (hclosing : ']' ∉ name.toList) (ht : name ≠ "text()")
    (hp : ∀ predicate ∈ predicates, predicate.Legible) :
    SpellsStep (Step.named name predicates).written (.named name predicates) := by
  have ht' : name.toList ≠ "text()".toList := fun he => ht (String.toList_inj.mp he)
  refine ⟨name.toList, predicates.map Group.ofPredicate, predicates, ?_, hn, hclosing, ?_, ?_⟩
  · rw [Group.flatMap_written_ofPredicate, Step.written]
  · apply List.forall₂_map_left_iff.mpr
    exact List.forall₂_same.mpr fun predicate hm => Group.spells_ofPredicate (hp predicate hm)
  · rw [if_neg ht', String.ofList_toList]

/-- A source holds all characters of the step's written form, in their order. -/
theorem written_sublist (h : SpellsStep source step) : step.written.Sublist source := by
  obtain ⟨name, groups, predicates, rfl, -, -, hall, rfl⟩ := h
  split
  · rename_i ht
    rw [ht]
    exact List.sublist_append_left _ _
  · rw [Step.written, String.toList_ofList]
    exact (List.Sublist.refl name).append (Group.sublist_of_forall₂ hall)

/-- Only the empty source spells a step with an empty written form. -/
theorem eq_nil_of_written (h : SpellsStep source step) (hw : step.written = []) :
    source = [] := by
  obtain ⟨name, groups, predicates, rfl, -, -, hall, rfl⟩ := h
  split at hw
  · cases hw
  · rw [Step.written, String.toList_ofList, List.append_eq_nil_iff] at hw
    obtain ⟨rfl, hp⟩ := hw
    cases hall with
    | nil => rfl
    | cons => simp [Predicate.written] at hp

/-- **A step is written as its source exactly if the source is neat.** -/
theorem written_eq_iff (h : SpellsStep source step) : step.written = source ↔ NeatStep source := by
  obtain ⟨name, groups, predicates, rfl, hn, -, hall, rfl⟩ := h
  have hbounded := Group.bounded_of_forall₂ hall
  constructor
  · intro hw
    split at hw
    · -- behind the name of a step for texts nothing is written
      rename_i ht
      refine ⟨name, [], ?_, hn, by simp, fun _ => rfl⟩
      rw [← hw, ht]
      rfl
    · rename_i ht
      rw [Step.written, String.toList_ofList, List.append_cancel_left_eq,
        Group.flatMap_written_eq_iff hall] at hw
      exact ⟨name, groups, rfl, hn, fun group hg => ⟨hbounded group hg, hw group hg⟩,
        fun he => absurd he ht⟩
  · rintro ⟨name', groups', he, hn', hneat, ht'⟩
    -- the source is taken apart in one way only
    obtain ⟨rfl, hgroups⟩ := eq_and_eq_of_append_groups hn hn' he
    obtain rfl := groups_inj hbounded (fun group hg => (hneat group hg).1) hgroups
    split
    · rename_i ht
      rw [ht' ht, ht]
      rfl
    · rw [Step.written, String.toList_ofList,
        (Group.flatMap_written_eq_iff hall).mpr fun group hg => (hneat group hg).2]

end SpellsStep

/-! ## Rows of steps -/

/-- Steps are read exactly from sources that spell them, one for each. -/
theorem readSteps_eq_ok_iff {sources : List (List Char)} {steps : List Step} :
    readSteps sources = .ok steps ↔ List.Forall₂ SpellsStep sources steps := by
  induction sources generalizing steps with
  | nil => simp [readSteps, eq_comm]
  | cons source rest ih =>
    rw [readSteps]
    constructor
    · intro h
      split at h
      · cases h
      · rename_i step hstep
        split at h
        · cases h
        · rename_i steps hsteps
          cases h
          exact .cons (Step.read_eq_ok_iff.mp hstep) (ih.mp hsteps)
    · intro h
      cases h with
      | cons hstep hsteps =>
        simp only [Step.read_eq_ok_iff.mpr hstep, ih.mpr hsteps]

section Row
variable {parts : List (List Char)} {steps : List Step}

theorem forall₂_written (h : List.Forall₂ SpellsStep parts steps) :
    List.Forall₂ SpellsStep (steps.map Step.written) steps := by
  induction h with
  | nil => exact .nil
  | cons hs _ ih => exact .cons hs.self ih

theorem map_written_eq_iff (h : List.Forall₂ SpellsStep parts steps) :
    steps.map Step.written = parts ↔ ∀ part ∈ parts, NeatStep part := by
  induction h with
  | nil => simp
  | cons hs _ ih => rw [List.map_cons, List.cons.injEq, hs.written_eq_iff, ih,
      List.forall_mem_cons]

/-- A row of sources ends with the source of the row's last step. -/
theorem exists_spells_of_getLast? (h : List.Forall₂ SpellsStep parts steps) {step : Step}
    (hl : step ∈ steps.getLast?) : ∃ part ∈ parts.getLast?, SpellsStep part step := by
  induction h with
  | nil => cases hl
  | @cons part _ _ _ hs hrest ih =>
    cases hrest with
    | nil =>
      obtain rfl := Option.some.inj hl
      exact ⟨part, rfl, hs⟩
    | cons =>
      rw [List.getLast?_cons_cons] at hl ⊢
      exact ih hl

theorem exists_spells_of_mem (h : List.Forall₂ SpellsStep parts steps) {step : Step}
    (hm : step ∈ steps) : ∃ part ∈ parts, SpellsStep part step := by
  induction h with
  | nil => cases hm
  | cons hs _ ih =>
    rcases List.mem_cons.mp hm with rfl | hm
    · exact ⟨_, List.mem_cons_self, hs⟩
    · obtain ⟨part, hp, hs⟩ := ih hm
      exact ⟨part, List.mem_cons_of_mem _ hp, hs⟩

end Row

/-! ## Parts -/

/-- Parts of a path as its separators leave them: at least one, no separator in any of
them, and behind the first one, the last is not empty. -/
structure AreParts (parts : List (List Char)) : Prop where
  ne_nil : parts ≠ []
  not_mem : ∀ part ∈ parts, stepSeparator ∉ part
  final : ∀ part ∈ parts.tail.getLast?, part ≠ []

theorem intercalate_concat {front : List (List Char)} (hf : front ≠ []) (last : List Char)
    (separator : Char) :
    [separator].intercalate (front ++ [last]) =
      [separator].intercalate front ++ separator :: last := by
  induction front with
  | nil => exact absurd rfl hf
  | cons first front ih =>
    cases front with
    | nil => simp
    | cons next front =>
      rw [List.cons_append, List.intercalate_cons_of_ne_nil (by simp),
        ih (List.cons_ne_nil _ _), List.intercalate_cons_cons]
      simp

theorem areParts_stepSources (source : List Char) : AreParts (stepSources source) := by
  refine ⟨stepSources_ne_nil source, fun part hp hm => ?_, fun part hp => ?_⟩
  · exact not_mem_of_mem_splitOn hp hm
  · rintro rfl
    have hjoin : [stepSeparator].intercalate (stepSources source) =
        dropEndWhile (· == stepSeparator) source := List.intercalate_splitOn stepSeparator
    obtain ⟨first, rest, he⟩ := List.exists_cons_of_ne_nil (stepSources_ne_nil source)
    rw [he] at hp hjoin
    obtain ⟨front, rfl⟩ := List.getLast?_eq_some_iff.mp hp
    -- an empty last part would mean that a separator was left at the end
    rw [← List.cons_append, intercalate_concat (List.cons_ne_nil _ _)] at hjoin
    exact absurd (dropEndWhile_concat_ne hjoin.symm) (by simp)

namespace AreParts
variable {parts : List (List Char)}

/-- Joined parts do not end with a separator. -/
theorem getLast?_intercalate_ne (h : AreParts parts) :
    ([stepSeparator].intercalate parts).getLast? ≠ some stepSeparator := by
  obtain ⟨first, rest, rfl⟩ := List.exists_cons_of_ne_nil h.ne_nil
  rcases List.eq_nil_or_concat rest with rfl | ⟨front, last, rfl⟩
  · rw [List.intercalate_singleton]
    exact fun hl => h.not_mem first List.mem_cons_self (List.mem_of_getLast? hl)
  · rw [List.concat_eq_append, ← List.cons_append, intercalate_concat (List.cons_ne_nil _ _),
      List.getLast?_append_of_ne_nil _ (List.cons_ne_nil _ _)]
    have hlast : last ≠ [] := h.final last (by simp)
    obtain ⟨c, last, rfl⟩ := List.exists_cons_of_ne_nil hlast
    rw [List.getLast?_cons_cons]
    exact fun hl => h.not_mem _ (by simp) (List.mem_of_getLast? hl)

/-- Joined parts are found again. -/
theorem stepSources_intercalate (h : AreParts parts) :
    stepSources ([stepSeparator].intercalate parts) = parts := by
  rw [stepSources, dropEndWhile_separator h.getLast?_intercalate_ne]
  exact List.splitOn_intercalate stepSeparator h.not_mem h.ne_nil

/-- What the steps are written as has the properties of the parts they spell. -/
theorem map_written {steps : List Step} (h : AreParts parts)
    (hs : List.Forall₂ SpellsStep parts steps) : AreParts (steps.map Step.written) := by
  refine ⟨?_, ?_, ?_⟩
  · intro he
    obtain rfl := List.map_eq_nil_iff.mp he
    cases hs
    exact h.ne_nil rfl
  · intro written hm
    obtain ⟨step, hstep, rfl⟩ := List.mem_map.mp hm
    obtain ⟨part, hp, hspells⟩ := exists_spells_of_mem hs hstep
    exact fun hsep => h.not_mem part hp (hspells.written_sublist.subset hsep)
  · intro written hm hnil
    cases hs with
    | nil => exact h.ne_nil rfl
    | cons _ hrest =>
      rw [List.map_cons, List.tail_cons, List.getLast?_map, Option.mem_def,
        Option.map_eq_some_iff] at hm
      obtain ⟨step, hstep, rfl⟩ := hm
      obtain ⟨part, hp, hspells⟩ := exists_spells_of_getLast? hrest hstep
      exact h.final part hp (hspells.eq_nil_of_written hnil)

end AreParts

/-! ## Paths -/

namespace Path

/-- A path is compiled exactly from parts that spell its steps. -/
theorem read_eq_ok_iff {source : String} {path : Path} :
    Path.read (some source) = .ok path ↔
      List.Forall₂ SpellsStep (stepSources source.toList) path.steps :=
  ofChars_eq_ok_iff.trans readSteps_eq_ok_iff

/-- Joined parts are compiled to the path whose steps they spell. -/
theorem read_of_areParts {source : String} {path : Path} {parts : List (List Char)}
    (hparts : AreParts parts) (hsource : source.toList = [stepSeparator].intercalate parts)
    (hs : List.Forall₂ SpellsStep parts path.steps) : Path.read (some source) = .ok path := by
  rw [read_eq_ok_iff, hsource, hparts.stepSources_intercalate]
  exact hs

/-- **What was compiled can be written down and compiled again**, to an equal path.  The
written form is the source itself exactly if that does not end with a separator, no
blank touches a bracket from inside or stands behind a predicate, and no predicate
follows the name `text()`. -/
theorem read_render_and_eq_iff_neat {source : String} {path : Path}
    (h : Path.read (some source) = .ok path) :
    Path.read (some path.render) = .ok path ∧
      (path.render = source ↔ NeatPath source.toList) := by
  have hspells := read_eq_ok_iff.mp h
  have hparts := (areParts_stepSources source.toList).map_written hspells
  have hwritten : path.render.toList = [stepSeparator].intercalate (path.steps.map Step.written) :=
    String.toList_ofList
  constructor
  · rw [read_eq_ok_iff, hwritten, hparts.stepSources_intercalate]
    exact forall₂_written hspells
  · rw [← String.toList_inj, hwritten]
    constructor
    · intro he
      have hsources : path.steps.map Step.written = stepSources source.toList := by
        rw [← he, hparts.stepSources_intercalate]
      refine ⟨he ▸ hparts.getLast?_intercalate_ne, ?_⟩
      rw [← he, List.splitOn_intercalate stepSeparator hparts.not_mem hparts.ne_nil, hsources]
      exact (map_written_eq_iff hspells).mp hsources
    · rintro ⟨hlast, hneat⟩
      -- no separator is dropped, so the parts are all of the source
      rw [stepSources, dropEndWhile_separator hlast] at hspells
      rw [(map_written_eq_iff hspells).mpr hneat]
      exact List.intercalate_splitOn stepSeparator

/-- The source below has all that a written form has not. -/
theorem read_render_and_eq_iff_neat_loose :
    ∃ path, Path.read (some "r//a [ b = 1]\t/text()[c=2]/") = .ok path ∧
      Path.read (some "r//a [b = 1]/text()") = .ok path ∧
      ¬ NeatPath "r//a [ b = 1]\t/text()[c=2]/".toList := by
  have h : Path.read (some "r//a [ b = 1]\t/text()[c=2]/") =
      .ok ⟨[.named "r" [], .named "" [], .named "a " [⟨"b ", " 1"⟩], .text], by simp⟩ :=
    ofChars_eq_ok_iff.mpr (by cbv)
  obtain ⟨hread, hiff⟩ := read_render_and_eq_iff_neat h
  exact ⟨_, h, hread, fun hn => absurd (hiff.mpr hn) (by decide)⟩

end Path
end TagPath
