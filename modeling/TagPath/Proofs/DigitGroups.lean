import Mathlib
import TagPath.Number.Grouped
import TagPath.Proofs.Blanks
import TagPath.Proofs.DecimalGrammar

/-! # Digit groups

The commas of a text are judged by where they stand, and what is read afterwards is the
text without them.  A text passes exactly if it has grouped parts: signs, groups parted by
commas, and nothing more or a point with what is behind it (`GroupedParts`,
`commasFit_iff`).

Groups are judged by their bytes, whatever these are.  What settles the rest is the
decimal that the text is without its commas: the signs are the decimal's sign, and the
groups hold the digits before its point, or these and an exponent if there is no point
(`GroupedParts.of_decimal`).
-/
namespace TagPath
open Text

/-! ## Groups -/

/-- Groups of three characters, of which the first may be shorter. -/
def InThrees : List (List Char) → Prop
  | [] => False
  | first :: rest => 1 ≤ first.length ∧ first.length ≤ 3 ∧ ∀ group ∈ rest, group.length = 3

instance (groups : List (List Char)) : Decidable (InThrees groups) :=
  match groups with
  | [] => inferInstanceAs (Decidable False)
  | first :: rest => inferInstanceAs (Decidable
    (1 ≤ first.length ∧ first.length ≤ 3 ∧ ∀ group ∈ rest, group.length = 3))

theorem InThrees.flatten_ne_nil {groups : List (List Char)} (h : InThrees groups) :
    groups.flatten ≠ [] := by
  match groups, h with
  | (c :: first) :: rest, _ => simp

/-- Characters of one byte are as many as their bytes. -/
theorem groupSize_eq_length {group : List Char} (h : ∀ c ∈ group, c.utf8Size = 1) :
    groupSize group = group.length := by
  induction group with
  | nil => rfl
  | cons c group ih =>
    obtain ⟨hc, hrest⟩ := List.forall_mem_cons.mp h
    have := ih hrest
    simp only [groupSize, String.utf8ByteSize_ofList, String.utf8Len_cons, List.length_cons]
      at this ⊢
    omega

/-- Of groups of characters of one byte, those in threes fit. -/
theorem groupsFit_iff {groups : List (List Char)} (h : ∀ c ∈ groups.flatten, c.utf8Size = 1) :
    groupsFit groups = true ↔ InThrees groups := by
  have hsize : ∀ group ∈ groups, groupSize group = group.length := fun group hg =>
    groupSize_eq_length fun c hc => h c (List.mem_flatten_of_mem hg hc)
  cases groups with
  | nil => simp [groupsFit, InThrees]
  | cons first rest =>
    obtain ⟨hfirst, hrest⟩ := List.forall_mem_cons.mp hsize
    have hall : rest.all (groupSize · == 3) = true ↔ ∀ group ∈ rest, group.length = 3 := by
      rw [List.all_eq_true]
      refine forall₂_congr fun group hg => ?_
      rw [beq_iff_eq, hrest group hg]
    rw [groupsFit, InThrees, Bool.and_eq_true, Bool.and_eq_true, hall, hfirst]
    simp [and_assoc]

/-! ## Commas -/

theorem intercalate_commaGroups (text : List Char) : [','].intercalate (commaGroups text) = text :=
  List.intercalate_splitOn ','

theorem comma_not_mem_of_mem_commaGroups {text group : List Char} (h : group ∈ commaGroups text) :
    ',' ∉ group :=
  not_mem_of_mem_splitOn h

/-- A text without commas loses none. -/
theorem filter_comma_eq_self {text : List Char} (h : ',' ∉ text) :
    text.filter (· != ',') = text :=
  List.filter_eq_self.mpr (forall_bne_iff.mpr h)

/-- Taking the commas out of joined groups joins the groups without them. -/
theorem filter_intercalate_comma {groups : List (List Char)} (h : ∀ group ∈ groups, ',' ∉ group) :
    ([','].intercalate groups).filter (· != ',') = groups.flatten := by
  induction groups with
  | nil => rfl
  | cons first rest ih =>
    obtain ⟨hfirst, hrest⟩ := List.forall_mem_cons.mp h
    have hkeep : first.filter (· != ',') = first := filter_comma_eq_self hfirst
    cases rest with
    | nil => simpa using hkeep
    | cons next rest =>
      rw [List.intercalate_cons_cons, List.filter_append, List.filter_append, hkeep, ih hrest]
      simp

/-- Joined groups hold what the groups hold, and commas. -/
theorem mem_intercalate_iff {groups : List (List Char)} (h : ∀ group ∈ groups, ',' ∉ group)
    {c : Char} (hc : c ≠ ',') : c ∈ [','].intercalate groups ↔ c ∈ groups.flatten := by
  rw [← filter_intercalate_comma h, List.mem_filter, bne_iff_ne]
  exact (and_iff_left hc).symm

/-- Groups that fit begin with a character, and so they begin when they are joined. -/
theorem exists_head_of_groupsFit {groups : List (List Char)} (h : groupsFit groups = true) :
    ∃ c, groups.flatten.head? = some c ∧ ([','].intercalate groups).head? = some c := by
  match groups with
  | [] => cases h
  | [] :: _ => cases h
  | [c :: first] => exact ⟨c, by simp, by simp⟩
  | (c :: first) :: next :: rest => exact ⟨c, by simp, by simp [List.intercalate_cons_cons]⟩

theorem ne_nil_of_groupsFit {groups : List (List Char)} (h : groupsFit groups = true) :
    groups ≠ [] := by
  rintro rfl
  cases h

/-! ## Parts -/

theorem isSignChar_eq_false_iff {c : Char} : isSignChar c = false ↔ c ≠ '+' ∧ c ≠ '-' := by
  simp [isSignChar, and_comm]

theorem IsSign.isSignChar {text : List Char} (h : IsSign text) :
    ∀ c ∈ text, isSignChar c = true := by
  intro c hc
  rcases h.mem hc with rfl | rfl <;> rfl

/-- What stands behind groups: nothing, or the only point and no comma behind it. -/
def IsTail (text : List Char) : Prop :=
  text = [] ∨ ∃ behind, text = '.' :: behind ∧ ',' ∉ behind ∧ '.' ∉ behind

theorem IsTail.comma_not_mem {text : List Char} (h : IsTail text) : ',' ∉ text := by
  rcases h with rfl | ⟨behind, rfl, hc, -⟩
  · exact List.not_mem_nil
  · simpa using hc

theorem IsTail.head_eq {text : List Char} (h : IsTail text) : ∀ c ∈ text.head?, c = '.' := by
  rcases h with rfl | ⟨behind, rfl, -⟩
  · simp
  · simp

/-- Signs, groups parted by commas, and what is behind them, as one text. -/
def joinedGroups (signs : List Char) (groups : List (List Char)) (tail : List Char) : List Char :=
  signs ++ [','].intercalate groups ++ tail

/-- The parts of a text whose commas fit. -/
structure GroupedParts (signs : List Char) (groups : List (List Char)) (tail : List Char) :
    Prop where
  signs : ∀ c ∈ signs, isSignChar c = true
  first : ∀ c ∈ groups.flatten.head?, isSignChar c = false
  comma_not_mem : ∀ group ∈ groups, ',' ∉ group
  point_not_mem : '.' ∉ groups.flatten
  fit : groupsFit groups = true
  tail : IsTail tail

/-- The part before the first point and the part behind it, told by the tail. -/
theorem partAtPoint_append {whole tail : List Char} (hw : '.' ∉ whole) (ht : IsTail tail) :
    partAtPoint (whole ++ tail) = (whole, tail.drop 1) := by
  rcases ht with rfl | ⟨behind, rfl, -, -⟩
  · rw [List.append_nil, partAtPoint, cut?_singleton_eq_none_iff.mpr hw]
    rfl
  · rw [partAtPoint, cut?_singleton_append hw]
    rfl

/-- Every text has a part before its first point, and a tail if no comma and no second
point is behind that. -/
theorem exists_tail (text : List Char) :
    ∃ tail, text = (partAtPoint text).1 ++ tail ∧ '.' ∉ (partAtPoint text).1 ∧
      (',' ∉ (partAtPoint text).2 → '.' ∉ (partAtPoint text).2 → IsTail tail) := by
  unfold partAtPoint
  split
  · rename_i hc
    exact ⟨[], (List.append_nil _).symm, cut?_singleton_eq_none_iff.mp hc, fun _ _ => .inl rfl⟩
  · rename_i parts hc
    obtain ⟨htext, hp⟩ := cut?_singleton_eq_some_iff.mp hc
    exact ⟨'.' :: parts.2, htext, hp, fun hcomma hpoint => .inr ⟨parts.2, rfl, hcomma, hpoint⟩⟩

theorem commasFit_eq_true_iff {text : List Char} :
    commasFit text = true ↔
      (',' ∉ (partAtPoint text).2 ∧ '.' ∉ (partAtPoint text).2) ∧
        groupsFit (commaGroups ((partAtPoint text).1.dropWhile isSignChar)) = true := by
  simp only [commasFit, Bool.and_eq_true, Bool.not_eq_true', List.contains_eq_mem,
    decide_eq_false_iff_not]

namespace GroupedParts
variable {signs : List Char} {groups : List (List Char)} {tail : List Char}

/-- Without its commas, a text is signs, the characters of the groups, and the tail. -/
theorem filter_eq (h : GroupedParts signs groups tail) :
    (joinedGroups signs groups tail).filter (· != ',') = signs ++ groups.flatten ++ tail := by
  have hsigns : ',' ∉ signs := fun hm => absurd (h.signs ',' hm) (by decide)
  rw [joinedGroups, List.filter_append, List.filter_append, filter_comma_eq_self hsigns,
    filter_comma_eq_self h.tail.comma_not_mem, filter_intercalate_comma h.comma_not_mem]

/-- A text with such parts passes. -/
theorem commasFit (h : GroupedParts signs groups tail) :
    commasFit (joinedGroups signs groups tail) = true := by
  have hpoint : '.' ∉ signs ++ [','].intercalate groups := by
    rw [List.mem_append, mem_intercalate_iff h.comma_not_mem (by decide)]
    rintro (hm | hm)
    · exact absurd (h.signs '.' hm) (by decide)
    · exact h.point_not_mem hm
  have hhead : ∀ c ∈ ([','].intercalate groups).head?, isSignChar c = false := by
    obtain ⟨d, hd, hd'⟩ := exists_head_of_groupsFit h.fit
    rw [hd', ← hd]
    exact h.first
  obtain ⟨-, hdrop⟩ := takeWhile_and_dropWhile_iff.mpr ⟨rfl, h.signs, hhead⟩
  have hgroups : commaGroups ([','].intercalate groups) = groups :=
    List.splitOn_intercalate ',' h.comma_not_mem (ne_nil_of_groupsFit h.fit)
  have htail : ',' ∉ tail.drop 1 ∧ '.' ∉ tail.drop 1 := by
    rcases h.tail with rfl | ⟨behind, rfl, hb⟩
    · simp
    · exact hb
  rw [commasFit_eq_true_iff, joinedGroups, partAtPoint_append hpoint h.tail, hdrop, hgroups]
  exact ⟨htail, h.fit⟩

/-- A text that passes has such parts. -/
theorem of_commasFit {text : List Char} (h : TagPath.commasFit text = true) :
    ∃ signs groups tail, GroupedParts signs groups tail ∧
      text = joinedGroups signs groups tail := by
  obtain ⟨⟨hcomma, hsecond⟩, hfit⟩ := commasFit_eq_true_iff.mp h
  obtain ⟨tail, htext, hpoint, htail⟩ := exists_tail text
  obtain ⟨hwhole, hsigns, hfirst⟩ :=
    (@takeWhile_and_dropWhile_iff isSignChar (partAtPoint text).1 _ _).mp ⟨rfl, rfl⟩
  have hdigits := intercalate_commaGroups ((partAtPoint text).1.dropWhile isSignChar)
  have hparts : GroupedParts _ (commaGroups ((partAtPoint text).1.dropWhile isSignChar)) tail := {
    signs := hsigns
    first := by
      obtain ⟨c, hc, hc'⟩ := exists_head_of_groupsFit hfit
      rw [hc, ← hc', hdigits]
      exact hfirst
    comma_not_mem := fun group hg => comma_not_mem_of_mem_commaGroups hg
    point_not_mem := by
      rw [← mem_intercalate_iff (fun group hg => comma_not_mem_of_mem_commaGroups hg) (by decide),
        hdigits]
      exact fun hm => hpoint ((List.dropWhile_suffix _).subset hm)
    fit := hfit
    tail := htail hcomma hsecond }
  refine ⟨_, _, tail, hparts, ?_⟩
  rw [joinedGroups, hdigits, ← hwhole]
  exact htext

/-- If a text without its commas is a decimal, its signs are the decimal's sign.  Its
groups are the digits before the point, or these and an exponent, and then there is no
point. -/
theorem of_decimal (h : GroupedParts signs groups tail) {plain : PlainDecimal} {power : List Char}
    {exponent : Int} (hp : IsExponent power exponent)
    (he : signs ++ groups.flatten ++ tail = plain.written ++ power) :
    signs = plain.sign ∧
      (groups.flatten = plain.whole ∧ tail = plain.tail ++ power ∨
        power ≠ [] ∧ plain.tail = [] ∧ tail = [] ∧ groups.flatten = plain.whole ++ power) := by
  obtain ⟨rfl, hbody⟩ : signs = plain.sign ∧
      groups.flatten ++ tail = plain.whole ++ plain.tail ++ power := by
    refine append_inj_of_run h.signs ?_ plain.isSign.isSignChar ?_ ?_
    · obtain ⟨c, hc, -⟩ := exists_head_of_groupsFit h.fit
      intro d hd
      rw [List.head?_append, hc] at hd
      exact h.first d (hc.trans hd)
    · exact fun c hc => isSignChar_eq_false_iff.mpr (plain.head_ne_sign power c hc)
    · simpa [PlainDecimal.written] using he
  refine ⟨rfl, ?_⟩
  -- both sides are cut at their first point
  have hwhole : '.' ∉ plain.whole := plain.digits_whole.mark_not_mem (isDigit_mark (by simp))
  rcases htp : plain.tail with _ | ⟨c, behind⟩
  · -- without a point, all is in the groups
    have hall : '.' ∉ plain.whole ++ power := by
      rw [List.mem_append]
      rintro (hm | hm)
      · exact hwhole hm
      · exact hp.point_not_mem hm
    have hcut : groups.flatten ++ tail = (plain.whole ++ power) ++ [] := by
      simpa [htp] using hbody
    obtain ⟨hgroups, rfl⟩ :=
      append_inj_of_not_mem h.point_not_mem h.tail.head_eq hall (by simp) hcut
    rcases power with _ | ⟨mark, power⟩
    · exact .inl ⟨by simpa using hgroups, rfl⟩
    · exact .inr ⟨List.cons_ne_nil _ _, rfl, rfl, hgroups⟩
  · obtain rfl := plain.head_tail c (by rw [htp]; rfl)
    have hcut : groups.flatten ++ tail = plain.whole ++ ('.' :: behind ++ power) := by
      simpa [htp] using hbody
    exact .inl (append_inj_of_not_mem h.point_not_mem h.tail.head_eq hwhole (by simp) hcut)

end GroupedParts

/-- **The commas of a text fit exactly if it has grouped parts.** -/
theorem commasFit_iff {text : List Char} :
    commasFit text = true ↔
      ∃ signs groups tail, GroupedParts signs groups tail ∧
        text = joinedGroups signs groups tail := by
  constructor
  · exact GroupedParts.of_commasFit
  · rintro ⟨signs, groups, tail, h, rfl⟩
    exact h.commasFit

end TagPath
