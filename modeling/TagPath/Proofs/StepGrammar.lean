import Mathlib
import TagPath.Path.Step
import TagPath.Proofs.Blanks

/-! # The grammar of steps

A step is written as a name and a row of groups.  A group is what begins at a bracket
that opens a predicate and ends before the next one: the inside up to the first `]`, and
what stands behind that (`Group`).  A group spells a predicate if its inside is the
predicate with blanks at its two ends, and nothing but blanks stands behind it
(`Group.Spells`); the predicate's own sides may hold `[`, and blanks where they do not
touch a bracket (`Predicate.Legible`).  `SpellsStep source step` says the same of whole
steps.

**Reading a step accepts exactly what spells one** (`Step.read_exact`).  As the name
ends at the first `[` and an inside at the first `]`, there is only one way to take a
source apart (`groups_inj`), so no source spells two steps.
-/
namespace TagPath
open Text

/-! ## Predicates -/

/-- One side of a predicate: some characters, without the marks that end a side. -/
structure IsSide (text : List Char) : Prop where
  ne_nil : text ≠ []
  equals_not_mem : '=' ∉ text
  bracket_not_mem : ']' ∉ text

/-- A predicate that its written form spells.  A blank at an outer end would be taken
for a blank beside the bracket. -/
structure Predicate.Legible (predicate : Predicate) : Prop where
  child : IsSide predicate.child.toList
  value : IsSide predicate.value.toList
  first : ∀ c ∈ predicate.child.toList.head?, isBlank c = false
  final : ∀ c ∈ predicate.value.toList.getLast?, isBlank c = false

/-- The characters between the brackets of a written predicate. -/
def Predicate.inside (predicate : Predicate) : List Char :=
  predicate.child.toList ++ '=' :: predicate.value.toList

namespace Predicate
variable {predicate : Predicate}

theorem written_eq (predicate : Predicate) :
    predicate.written = '[' :: (predicate.inside ++ [']']) := by
  simp [written, inside]

/-- The ends of the inside are the outer ends of the two sides. -/
theorem trimmed_inside_iff (hc : predicate.child.toList ≠ []) (hv : predicate.value.toList ≠ []) :
    Trimmed predicate.inside ↔
      (∀ c ∈ predicate.child.toList.head?, isBlank c = false) ∧
        ∀ c ∈ predicate.value.toList.getLast?, isBlank c = false := by
  have hfirst : predicate.inside.head? = predicate.child.toList.head? :=
    List.head?_append_of_ne_nil _ hc
  have hfinal : predicate.inside.getLast? = predicate.value.toList.getLast? := by
    rw [inside, List.getLast?_append_of_ne_nil _ (List.cons_ne_nil _ _), List.getLast?_cons]
    cases hl : predicate.value.toList.getLast? with
    | none => exact absurd (List.getLast?_eq_none_iff.mp hl) hv
    | some c => rfl
  constructor
  · rintro ⟨hs, hf⟩
    rw [hfirst] at hs
    rw [hfinal] at hf
    exact ⟨hs, hf⟩
  · rintro ⟨hs, hf⟩
    rw [← hfirst] at hs
    rw [← hfinal] at hf
    exact ⟨hs, hf⟩

theorem Legible.trimmed (h : predicate.Legible) : Trimmed predicate.inside :=
  (trimmed_inside_iff h.child.ne_nil h.value.ne_nil).mpr ⟨h.first, h.final⟩

theorem Legible.bracket_not_mem (h : predicate.Legible) : ']' ∉ predicate.inside := by
  simp [inside, h.child.bracket_not_mem, h.value.bracket_not_mem]

/-- What stands up to a `]` is read as a legible predicate with blanks around it, and as
nothing else. -/
theorem readInside_trim_eq_ok_iff {text : List Char} (hb : ']' ∉ text) :
    readInside (trim text) = .ok predicate ↔
      predicate.Legible ∧ ∃ start final, Blanks start ∧ Blanks final ∧
        text = start ++ predicate.inside ++ final := by
  rw [readInside_eq_ok_iff, readEquality_eq_ok_iff]
  simp only [ne_eq, ← String.toList_eq_nil_iff]
  constructor
  · rintro ⟨he, hc, hv, hce, hve⟩
    obtain ⟨start, final, hs, hf, htext⟩ := exists_trim text
    have htrim : trim text = predicate.inside := he
    have htrimmed := trimmed_trim text
    rw [htrim] at htrimmed htext
    obtain ⟨hfirst, hfinal⟩ := (trimmed_inside_iff hc hv).mp htrimmed
    -- the sides are parts of the text
    have hinside : ']' ∉ predicate.inside := fun hm => hb (by rw [htext]; simp [hm])
    simp only [inside, List.mem_append, List.mem_cons, not_or] at hinside
    exact ⟨⟨⟨hc, hce, hinside.1⟩, ⟨hv, hve, hinside.2.2⟩, hfirst, hfinal⟩,
      start, final, hs, hf, htext⟩
  · rintro ⟨hl, start, final, hs, hf, rfl⟩
    rw [trim_append hs hf hl.trimmed.first, trimEnd_eq_self hl.trimmed.final]
    exact ⟨rfl, hl.child.ne_nil, hl.value.ne_nil, hl.child.equals_not_mem,
      hl.value.equals_not_mem⟩

end Predicate

/-! ## Groups -/

/-- What begins at an opening bracket of a step: the characters between it and its
closing bracket, and those behind that. -/
structure Group where
  inside : List Char
  behind : List Char
deriving Repr, DecidableEq

namespace Group

/-- The characters that a group takes up. -/
def written (group : Group) : List Char := '[' :: (group.inside ++ ']' :: group.behind)

/-- The inside ends at the first `]`, and what is behind ends before the next `[`. -/
structure Bounded (group : Group) : Prop where
  inside : ']' ∉ group.inside
  behind : '[' ∉ group.behind

/-- A group that is a predicate, with blanks inside its brackets and behind them. -/
def Spells (group : Group) (predicate : Predicate) : Prop :=
  predicate.Legible ∧ Blanks group.behind ∧ ∃ start final, Blanks start ∧ Blanks final ∧
    group.inside = start ++ predicate.inside ++ final

/-- A predicate that stands without blanks. -/
def ofPredicate (predicate : Predicate) : Group := ⟨predicate.inside, []⟩

theorem written_ofPredicate (predicate : Predicate) :
    (ofPredicate predicate).written = predicate.written :=
  predicate.written_eq.symm

theorem spells_ofPredicate {predicate : Predicate} (h : predicate.Legible) :
    (ofPredicate predicate).Spells predicate :=
  ⟨h, blanks_nil, [], [], blanks_nil, blanks_nil, by simp [ofPredicate]⟩

theorem Spells.bounded {group : Group} {predicate : Predicate} (h : group.Spells predicate) :
    group.Bounded := by
  obtain ⟨hl, hb, start, final, hs, hf, he⟩ := h
  refine ⟨?_, hb.mark_not_mem (isBlank_mark (by simp))⟩
  have hstart := hs.mark_not_mem (isBlank_mark (c := ']') (by simp))
  have hfinal := hf.mark_not_mem (isBlank_mark (c := ']') (by simp))
  simp [he, hstart, hl.bracket_not_mem, hfinal]

end Group

/-- A row of groups begins with a bracket. -/
theorem head?_flatMap_written (groups : List Group) :
    ∀ c ∈ (groups.flatMap Group.written).head?, c = '[' := by
  cases groups with
  | nil => simp
  | cons group groups =>
    intro c hc
    exact (Option.some.inj hc).symm

/-- What stands before a row of groups ends where the row begins. -/
theorem eq_and_eq_of_append_groups {front front' : List Char} {groups groups' : List Group}
    (hf : '[' ∉ front) (hf' : '[' ∉ front')
    (h : front ++ groups.flatMap Group.written = front' ++ groups'.flatMap Group.written) :
    front = front' ∧ groups.flatMap Group.written = groups'.flatMap Group.written :=
  append_inj_of_not_mem hf (head?_flatMap_written groups) hf' (head?_flatMap_written groups') h

/-- **A source is taken apart in one way only.** -/
theorem groups_inj {groups groups' : List Group} (hg : ∀ group ∈ groups, group.Bounded)
    (hg' : ∀ group ∈ groups', group.Bounded)
    (h : groups.flatMap Group.written = groups'.flatMap Group.written) : groups = groups' := by
  induction groups generalizing groups' with
  | nil =>
    cases groups' with
    | nil => rfl
    | cons group' groups' => simp [Group.written] at h
  | cons group groups ih =>
    cases groups' with
    | nil => simp [Group.written] at h
    | cons group' groups' =>
      obtain ⟨inside, behind⟩ := group
      obtain ⟨inside', behind'⟩ := group'
      obtain ⟨⟨hi, hb⟩, hrest⟩ := List.forall_mem_cons.mp hg
      obtain ⟨⟨hi', hb'⟩, hrest'⟩ := List.forall_mem_cons.mp hg'
      have htail : inside ++ ']' :: (behind ++ groups.flatMap Group.written) =
          inside' ++ ']' :: (behind' ++ groups'.flatMap Group.written) := by
        simpa [Group.written] using h
      -- both insides end at the first `]`
      have hcut := cut?_singleton_append hi (behind ++ groups.flatMap Group.written)
      rw [htail, cut?_singleton_append hi'] at hcut
      obtain ⟨rfl, hbehind⟩ := Prod.mk.inj (Option.some.inj hcut)
      obtain ⟨rfl, hgroups⟩ := eq_and_eq_of_append_groups hb' hb hbehind
      rw [ih hrest hrest' hgroups.symm]

/-! ## Runs of predicates -/

theorem readPredicates_eq_ok_nil_iff {source : List Char} :
    readPredicates source = .ok [] ↔ source = [] := by
  constructor
  · intro h
    rcases source with _ | ⟨c, group⟩
    · rfl
    · by_cases hc : c = '['
      · subst hc
        rw [readPredicates_bracket] at h
        split at h
        · cases h
        · split at h
          · cases h
          · split at h <;> cases h
      · rw [readPredicates_of_ne hc] at h
        cases h
  · rintro rfl
    exact readPredicates_nil

/-- A first predicate is read up to the first `]`, and the others behind it. -/
theorem readPredicates_eq_ok_cons_iff {source : List Char} {predicate : Predicate}
    {predicates : List Predicate} :
    readPredicates source = .ok (predicate :: predicates) ↔
      ∃ inside behind, source = '[' :: (inside ++ ']' :: behind) ∧ ']' ∉ inside ∧
        Predicate.readInside (trim inside) = .ok predicate ∧
        readPredicates (trimStart behind) = .ok predicates := by
  constructor
  · intro h
    rcases source with _ | ⟨c, group⟩
    · rw [readPredicates_nil] at h
      cases h
    · by_cases hc : c = '['
      · subst hc
        rw [readPredicates_bracket] at h
        split at h
        · cases h
        · rename_i inside behind hcut
          obtain ⟨rfl, hi⟩ := cut?_singleton_eq_some_iff.mp hcut
          split at h
          · cases h
          · rename_i hp
            split at h
            · cases h
            · rename_i hr
              cases h
              exact ⟨inside, behind, rfl, hi, hp, hr⟩
      · rw [readPredicates_of_ne hc] at h
        cases h
  · rintro ⟨inside, behind, rfl, hi, hp, hr⟩
    rw [readPredicates_bracket, cut?_singleton_append hi]
    simp only [hp, hr]

/-- Behind the blanks of a group, the next group begins. -/
theorem trimStart_append_groups {gap : List Char} (hg : Blanks gap) (groups : List Group) :
    trimStart (gap ++ groups.flatMap Group.written) = groups.flatMap Group.written := by
  rw [trimStart_append_of_all hg]
  refine trimStart_eq_self fun c hc => ?_
  rw [head?_flatMap_written groups c hc]
  exact isBlank_mark (by simp)

/-- **A run of predicates is read exactly from the groups that spell them.** -/
theorem readPredicates_eq_ok_iff {source : List Char} {predicates : List Predicate} :
    readPredicates source = .ok predicates ↔
      ∃ groups, source = groups.flatMap Group.written ∧
        List.Forall₂ Group.Spells groups predicates := by
  induction predicates generalizing source with
  | nil => simp [readPredicates_eq_ok_nil_iff]
  | cons predicate predicates ih =>
    rw [readPredicates_eq_ok_cons_iff]
    constructor
    · rintro ⟨inside, behind, rfl, hi, hp, hr⟩
      obtain ⟨groups, hgroups, hall⟩ := ih.mp hr
      obtain ⟨gap, hgap, hbehind⟩ := exists_trimStart behind
      obtain ⟨hl, hspaced⟩ := (Predicate.readInside_trim_eq_ok_iff hi).mp hp
      refine ⟨⟨inside, gap⟩ :: groups, ?_, .cons ⟨hl, hgap, hspaced⟩ hall⟩
      rw [hbehind, hgroups]
      simp [Group.written]
    · rintro ⟨_, rfl, hall⟩
      cases hall with
      | @cons group _ groups _ hs hall =>
        have hi := hs.bounded.inside
        obtain ⟨hl, hgap, hspaced⟩ := hs
        refine ⟨group.inside, group.behind ++ groups.flatMap Group.written, ?_,
          hi, ?_, ih.mpr ⟨groups, ?_, hall⟩⟩
        · simp [Group.written]
        · exact (Predicate.readInside_trim_eq_ok_iff hi).mpr ⟨hl, hspaced⟩
        · exact trimStart_append_groups hgap groups

theorem readInside_ne_bracketInName (text : List Char) (name : String) :
    Predicate.readInside text ≠ .error (.bracketInName name) := by
  unfold Predicate.readInside Predicate.readEquality
  split
  · split
    · simp
    · split <;> simp
  · simp

/-- Whatever is wrong with a run of predicates, it is not a name. -/
theorem readPredicates_ne_bracketInName (source : List Char) (name : String) :
    readPredicates source ≠ .error (.bracketInName name) := by
  fun_induction readPredicates source with
  | case1 => simp
  | case2 => simp
  | case3 group inside behind _ error herror =>
    intro he
    obtain rfl := Except.error.inj he
    exact readInside_ne_bracketInName _ _ herror
  | case4 group inside behind _ predicate _ error herror ih => exact fun he => ih (herror.trans he)
  | case5 => simp
  | case6 => simp

/-! ## Steps -/

/-- A source that is a step: its name, and groups for its predicates.  The name `text()`
asks for texts, and the predicates behind it go. -/
def SpellsStep (source : List Char) (step : Step) : Prop :=
  ∃ name groups predicates, source = name ++ groups.flatMap Group.written ∧
    '[' ∉ name ∧ ']' ∉ name ∧ List.Forall₂ Group.Spells groups predicates ∧
    step = if name = "text()".toList then .text else .named (String.ofList name) predicates

/-- The part of a source before its first `[`, or all of it. -/
def IsNamePart (name source : List Char) : Prop :=
  ∃ behind, source = name ++ behind ∧ '[' ∉ name ∧ ∀ c ∈ behind.head?, c = '['

namespace Step
variable {source : List Char}

/-- The name and the groups of a source are told apart at its first `[`. -/
theorem read_append {name groups : List Char} (hn : '[' ∉ name) (hg : ∀ c ∈ groups.head?, c = '[') :
    Step.read (name ++ groups) =
      if ']' ∈ name then .error (.bracketInName (String.ofList name))
      else (readPredicates groups).map (ofName name) := by
  obtain ⟨hname, hgroups⟩ := takeWhile_ne_and_dropWhile_ne_iff.mpr ⟨rfl, hn, hg⟩
  simp only [Step.read, hname, hgroups]
  split
  · rfl
  · cases readPredicates groups <;> rfl

/-- Every source has a name part. -/
theorem exists_isNamePart (source : List Char) : ∃ name, IsNamePart name source :=
  ⟨_, _, takeWhile_ne_and_dropWhile_ne_iff.mp ⟨rfl, rfl⟩⟩

theorem read_eq_ok_iff {step : Step} : Step.read source = .ok step ↔ SpellsStep source step := by
  constructor
  · intro h
    obtain ⟨name, behind, rfl, hn, hb⟩ := exists_isNamePart source
    rw [read_append hn hb] at h
    split at h
    · cases h
    · rename_i hclosing
      cases hr : readPredicates behind with
      | error error =>
        rw [hr] at h
        cases h
      | ok predicates =>
        rw [hr] at h
        obtain ⟨groups, rfl, hall⟩ := readPredicates_eq_ok_iff.mp hr
        exact ⟨name, groups, predicates, rfl, hn, hclosing, hall, (Except.ok.inj h).symm⟩
  · rintro ⟨name, groups, predicates, rfl, hn, hclosing, hall, rfl⟩
    rw [read_append hn (head?_flatMap_written groups), if_neg hclosing,
      readPredicates_eq_ok_iff.mpr ⟨groups, rfl, hall⟩]
    rfl

theorem read_eq_bracketInName_iff {name : String} :
    Step.read source = .error (.bracketInName name) ↔
      IsNamePart name.toList source ∧ ']' ∈ name.toList := by
  constructor
  · intro h
    obtain ⟨part, behind, rfl, hn, hb⟩ := exists_isNamePart source
    rw [read_append hn hb] at h
    split at h
    · rename_i hclosing
      obtain rfl : String.ofList part = name := by simpa using h
      rw [String.toList_ofList]
      exact ⟨⟨behind, rfl, hn, hb⟩, hclosing⟩
    · cases hr : readPredicates behind with
      | error error =>
        rw [hr] at h
        obtain rfl : error = .bracketInName name := Except.error.inj h
        exact absurd hr (readPredicates_ne_bracketInName behind name)
      | ok predicates =>
        rw [hr] at h
        cases h
  · rintro ⟨⟨behind, rfl, hn, hb⟩, hclosing⟩
    rw [read_append hn hb, if_pos hclosing, String.ofList_toList]

/-- **Reading a step accepts exactly what spells one**, and every other source is at
fault.  The fault lies in the name exactly if a `]` stands before the first `[`. -/
theorem read_exact (source : List Char) :
    (∀ step, Step.read source = .ok step ↔ SpellsStep source step) ∧
      ((¬ ∃ step, SpellsStep source step) → ∃ error, Step.read source = .error error) ∧
      ∀ name, Step.read source = .error (.bracketInName name) ↔
        IsNamePart name.toList source ∧ ']' ∈ name.toList := by
  refine ⟨fun step => read_eq_ok_iff, fun hnone => ?_, fun name => read_eq_bracketInName_iff⟩
  cases h : Step.read source with
  | error error => exact ⟨error, rfl⟩
  | ok step => exact absurd ⟨step, read_eq_ok_iff.mp h⟩ hnone

/-- The name keeps its blank, and so do the inner ends of the two sides. -/
example : Step.read "a [ b[ = x ]\t".toList = .ok (.named "a " [⟨"b[ ", " x"⟩]) := by cbv

end Step
end TagPath
