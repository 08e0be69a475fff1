import Mathlib
import TagPath.Proofs.DigitGroups

/-! # Numbers with commas

Which commas the text of a number may hold, told from two sides.

Commas put anywhere into a plain decimal keep its value if they part the digits before
the point into groups of three, of which the first may be shorter
(`PlainDecimal.Grouped`); **in every other case nothing is read**
(`readNumber_commasPut`).

In the other direction, a text with commas that is read as a number has its digits in
such groups (`IsGrouped`), **unless an exponent was taken for digits**: groups are judged
by their lengths, so those of `1,1e5` and of `1e-,100` pass (`IsGroupedExponent`).  There
are no further texts with commas that are numbers (`readNumber_eq_some_iff_of_comma`).
-/
namespace TagPath
open Text

/-! ## Characters of decimals -/

theorem toNat_of_isDigit {c : Char} (h : Decimal.isDigit c = true) :
    48 ≤ c.toNat ∧ c.toNat ≤ 57 := by
  simpa [Decimal.isDigit, Char.le_def, UInt32.le_iff_toNat_le] using h

theorem isBlank_of_isDigit {c : Char} (h : Decimal.isDigit c = true) : isBlank c = false := by
  have hrange := toNat_of_isDigit h
  simp only [isBlank, blankRuns, List.any_cons, List.any_nil, Bool.or_false, Bool.or_eq_false_iff,
    Bool.and_eq_false_iff, decide_eq_false_iff_not]
  omega

theorem utf8Size_of_isDigit {c : Char} (h : Decimal.isDigit c = true) : c.utf8Size = 1 := by
  have hrange := toNat_of_isDigit h
  have hval : c.toNat = c.val.toNat := rfl
  have hlast : (127 : UInt32).toNat = 127 := rfl
  rw [Char.utf8Size_eq_one_iff, UInt32.le_iff_toNat_le]
  omega

namespace PlainDecimal
variable (plain : PlainDecimal)

/-- A tail is what may stand behind groups. -/
theorem isTail_tail : IsTail plain.tail := by
  have hd := plain.digits_fraction
  unfold tail Decimal.pointed
  split
  · exact .inl rfl
  · rename_i digits hf
    rw [hf, Option.getD_some] at hd
    exact .inr ⟨digits, rfl, hd.mark_not_mem (isDigit_mark (by simp)),
      hd.mark_not_mem (isDigit_mark (by simp))⟩

/-- A plain decimal holds digits, a sign and a point. -/
theorem mem_written {c : Char} (h : c ∈ plain.written) :
    Decimal.isDigit c = true ∨ c ∈ ['+', '-', '.'] := by
  rcases List.mem_append.mp h with h | h
  · rcases List.mem_append.mp h with h | h
    · rcases plain.isSign.mem h with rfl | rfl <;> simp
    · exact .inl (plain.digits_whole c h)
  · have hd := plain.digits_fraction
    unfold tail Decimal.pointed at h
    split at h
    · cases h
    · rename_i digits hf
      rw [hf, Option.getD_some] at hd
      rcases List.mem_cons.mp h with rfl | h
      · simp
      · exact .inl (hd c h)

theorem comma_not_mem_written : ',' ∉ plain.written :=
  fun hm => absurd (plain.mem_written hm) (by decide)

theorem isBlank_of_mem_written {c : Char} (h : c ∈ plain.written) : isBlank c = false := by
  rcases plain.mem_written h with hd | hm
  · exact isBlank_of_isDigit hd
  · simp only [List.mem_cons, List.not_mem_nil, or_false] at hm
    rcases hm with rfl | rfl | rfl <;> rfl

end PlainDecimal

section Groups
variable {signs whole power tail : List Char} {groups : List (List Char)} {exponent : Int}

/-- Digits and an exponent are characters of one byte, so the lengths of groups of them
are counted in characters as well. -/
theorem groupsFit_iff_of_flatten (hw : Digits whole) (hp : IsExponent power exponent)
    (hf : groups.flatten = whole ++ power) : groupsFit groups = true ↔ InThrees groups := by
  refine groupsFit_iff fun c hc => ?_
  rw [hf, List.mem_append] at hc
  rcases hc with hc | hc
  · exact utf8Size_of_isDigit (hw c hc)
  · rcases hp.mem hc with hd | hm
    · exact utf8Size_of_isDigit hd
    · simp only [List.mem_cons, List.not_mem_nil, or_false] at hm
      rcases hm with rfl | rfl | rfl | rfl <;> rfl

/-- Digits in threes, with an exponent behind them or without one, fit between a sign and
a tail. -/
theorem GroupedParts.of_inThrees (hs : IsSign signs) (hg : InThrees groups) (hw : Digits whole)
    (hne : whole ≠ []) (hp : IsExponent power exponent) (hf : groups.flatten = whole ++ power)
    (ht : IsTail tail) : GroupedParts signs groups tail := by
  have hmem : ∀ c ∈ groups.flatten, Decimal.isDigit c = true ∨ c ∈ ['e', 'E', '+', '-'] := by
    intro c hc
    rw [hf, List.mem_append] at hc
    exact hc.elim (fun hc => .inl (hw c hc)) hp.mem
  obtain ⟨d, whole, rfl⟩ := List.exists_cons_of_ne_nil hne
  exact {
    signs := hs.isSignChar
    first := by
      intro c hc
      rw [hf] at hc
      obtain rfl : d = c := by simpa using hc
      exact isSignChar_eq_false_iff.mpr (Decimal.digits_head_ne_sign hw d rfl)
    comma_not_mem := fun group hg hc =>
      absurd (hmem ',' (List.mem_flatten_of_mem hg hc)) (by decide)
    point_not_mem := fun hc => absurd (hmem '.' hc) (by decide)
    fit := (groupsFit_iff_of_flatten hw hp hf).mpr hg
    tail := ht }

theorem groupsFit_iff_of_digits (hd : Digits groups.flatten) :
    groupsFit groups = true ↔ InThrees groups :=
  groupsFit_iff_of_flatten hd .none (List.append_nil _).symm

theorem GroupedParts.of_digits (hs : IsSign signs) (hg : InThrees groups)
    (hd : Digits groups.flatten) (ht : IsTail tail) : GroupedParts signs groups tail :=
  .of_inThrees hs hg hd hg.flatten_ne_nil .none (List.append_nil _).symm ht

/-- A single group is joined without a comma. -/
theorem GroupedParts.two_le_length (h : GroupedParts signs groups tail)
    (hc : ',' ∈ joinedGroups signs groups tail) : 2 ≤ groups.length := by
  have hne := ne_nil_of_groupsFit h.fit
  match groups with
  | [] => exact absurd rfl hne
  | [group] =>
    have hgroup : ',' ∉ group := h.comma_not_mem group List.mem_cons_self
    simp only [joinedGroups, List.intercalate_singleton, List.mem_append] at hc
    rcases hc with (hm | hm) | hm
    · exact absurd (h.signs ',' hm) (by decide)
    · exact absurd hm hgroup
    · exact absurd hm h.tail.comma_not_mem
  | _ :: _ :: rest => simp

end Groups

/-! ## Reading -/

/-- Blanks around the text of a number do not matter. -/
theorem readNumber_append_blanks {start final : String} (hs : Blanks start.toList)
    (hf : Blanks final.toList) (source : String) :
    readNumber (start ++ source ++ final) = readNumber source := by
  have htrim : trim (start ++ source ++ final).toList = trim source.toList := by
    rw [String.toList_append, String.toList_append]
    exact trim_append_blanks hs hf source.toList
  simp only [readNumber, htrim]

theorem readNumber_of_comma {source : String} (h : ',' ∈ trim source.toList) :
    readNumber source =
      if commasFit (trim source.toList) then
        Decimal.readFinite ((trim source.toList).filter (· != ','))
      else none := by
  simp only [readNumber, List.contains_eq_mem, h, decide_true, if_true]

theorem readNumber_of_not_comma {source : String} (h : ',' ∉ trim source.toList) :
    readNumber source = Decimal.readFinite (trim source.toList) := by
  simp only [readNumber, List.contains_eq_mem, h, decide_false, Bool.false_eq_true, if_false]

theorem trim_eq_self {text : List Char} (h : ∀ c ∈ text, isBlank c = false) : trim text = text :=
  Trimmed.trim_eq
    ⟨fun c hc => h c (List.mem_of_mem_head? hc), fun c hc => h c (List.mem_of_mem_getLast? hc)⟩

/-! ## Commas put into a decimal -/

/-- The second text is the first one with commas put in, anywhere and as many as one
likes. -/
inductive CommasPut : List Char → List Char → Prop
  | nil : CommasPut [] []
  /-- A character of the first text. -/
  | keep {text put : List Char} (c : Char) : CommasPut text put → CommasPut (c :: text) (c :: put)
  /-- A comma more. -/
  | comma {text put : List Char} : CommasPut text put → CommasPut text (',' :: put)

/-- Commas were put in exactly if taking all commas out undoes it. -/
theorem commasPut_iff {text put : List Char} (hn : ',' ∉ text) :
    CommasPut text put ↔ put.filter (· != ',') = text := by
  constructor
  · intro h
    induction h with
    | nil => rfl
    | keep c _ ih =>
      simp only [List.mem_cons, not_or] at hn
      have hc : (c != ',') = true := bne_iff_ne.mpr (Ne.symm hn.1)
      rw [List.filter_cons, if_pos hc, ih hn.2]
    | comma _ ih => rw [List.filter_cons_of_neg (by decide), ih hn]
  · rintro rfl
    clear hn
    induction put with
    | nil => exact .nil
    | cons c put ih =>
      rw [List.filter_cons]
      split
      · exact .keep c ih
      · rename_i hc
        obtain rfl : c = ',' := by simpa using hc
        exact .comma ih

namespace PlainDecimal

/-- A plain decimal as text. -/
def render (plain : PlainDecimal) : String := String.ofList plain.written

/-- A text is the plain decimal with the digits before its point in groups of three, of
which the first may be shorter, and commas between the groups. -/
def Grouped (plain : PlainDecimal) (text : List Char) : Prop :=
  ∃ groups, InThrees groups ∧ groups.flatten = plain.whole ∧
    text = joinedGroups plain.sign groups plain.tail

variable {plain : PlainDecimal} {text : List Char}

/-- Of the texts that are a plain decimal without their commas, those fit that are
grouped. -/
theorem commasFit_iff_grouped (h : text.filter (· != ',') = plain.written) :
    commasFit text = true ↔ plain.Grouped text := by
  rw [commasFit_iff]
  constructor
  · rintro ⟨signs, groups, tail, hparts, rfl⟩
    rw [hparts.filter_eq] at h
    obtain ⟨rfl, ⟨hgroups, htail⟩ | ⟨hne, -⟩⟩ :=
      hparts.of_decimal IsExponent.none (h.trans (List.append_nil _).symm)
    · rw [List.append_nil] at htail
      have hg := (groupsFit_iff_of_digits (hgroups ▸ plain.digits_whole)).mp hparts.fit
      exact ⟨groups, hg, hgroups, by rw [htail]⟩
    · exact absurd rfl hne
  · rintro ⟨groups, hg, hf, rfl⟩
    have hparts : GroupedParts plain.sign groups plain.tail :=
      .of_digits plain.isSign hg (hf ▸ plain.digits_whole) plain.isTail_tail
    exact ⟨_, groups, _, hparts, rfl⟩

/-- A plain decimal with commas put in has no blanks. -/
theorem trim_eq_of_filter (h : text.filter (· != ',') = plain.written) : trim text = text := by
  refine trim_eq_self fun c hc => ?_
  by_cases hm : c = ','
  · rw [hm]
    rfl
  · have hkept : c ∈ text.filter (· != ',') := List.mem_filter.mpr ⟨hc, bne_iff_ne.mpr hm⟩
    rw [h] at hkept
    exact plain.isBlank_of_mem_written hkept

/-- A plain decimal is read as the floating-point number nearest to it, if that is
finite. -/
theorem readNumber_render (plain : PlainDecimal) :
    readNumber plain.render =
      if plain.value.toFloat.isFinite then some plain.value.toFloat else none := by
  have htrim : trim plain.render.toList = plain.written := by
    rw [render, String.toList_ofList]
    exact trim_eq_self fun c => plain.isBlank_of_mem_written
  rw [readNumber_of_not_comma (htrim ▸ plain.comma_not_mem_written), htrim, Decimal.readFinite,
    plain.read_written]

end PlainDecimal

/-- **Commas keep the value of a plain decimal exactly as separators of thousands.**  If
all commas put in part the digits before the point into groups of three, of which the
first may be shorter, what is read is what the decimal is read as; otherwise nothing is
read.  Blanks around a text change nothing. -/
theorem readNumber_commasPut :
    (∀ (plain : PlainDecimal) (source : String), CommasPut plain.written source.toList →
      ',' ∈ source.toList →
        (plain.Grouped source.toList → readNumber source = readNumber plain.render) ∧
          (¬ plain.Grouped source.toList → readNumber source = none)) ∧
    (∀ plain : PlainDecimal, readNumber plain.render =
      if plain.value.toFloat.isFinite then some plain.value.toFloat else none) ∧
    ∀ start source final : String, Blanks start.toList → Blanks final.toList →
      readNumber (start ++ source ++ final) = readNumber source := by
  refine ⟨fun plain source hput hcomma => ?_, PlainDecimal.readNumber_render,
    fun start source final hs hf => readNumber_append_blanks hs hf source⟩
  have hfilter := (commasPut_iff plain.comma_not_mem_written).mp hput
  have htrim := PlainDecimal.trim_eq_of_filter hfilter
  have hread : readNumber source =
      if commasFit source.toList then Decimal.readFinite plain.written else none := by
    rw [readNumber_of_comma (htrim.symm ▸ hcomma), htrim, hfilter]
  constructor
  · intro hgrouped
    rw [hread, if_pos ((PlainDecimal.commasFit_iff_grouped hfilter).mpr hgrouped),
      plain.readNumber_render, Decimal.readFinite, plain.read_written]
  · intro hgrouped
    rw [hread, if_neg fun hfit => hgrouped ((PlainDecimal.commasFit_iff_grouped hfilter).mp hfit)]

/-- Of the commas below, those of the first text part the thousands. -/
theorem readNumber_commasPut_thousands :
    ∃ plain : PlainDecimal, plain.render = "-1234.5" ∧
      (CommasPut plain.written "-1,234.5".toList ∧ plain.Grouped "-1,234.5".toList ∧
        readNumber "-1,234.5" = some (-1234.5)) ∧
      (CommasPut plain.written "-12,34.5".toList ∧ ¬ plain.Grouped "-12,34.5".toList ∧
        readNumber "-12,34.5" = none) ∧
      readNumber " -1,234.5\t" = some (-1234.5) := by
  let plain : PlainDecimal :=
    ⟨['-'], ['1', '2', '3', '4'], some ['5'], by decide, by decide, by decide, by decide⟩
  have hfirst : CommasPut plain.written "-1,234.5".toList :=
    (commasPut_iff plain.comma_not_mem_written).mpr (by decide)
  have hsecond : CommasPut plain.written "-12,34.5".toList :=
    (commasPut_iff plain.comma_not_mem_written).mpr (by decide)
  have hgrouped : plain.Grouped "-1,234.5".toList :=
    ⟨[['1'], ['2', '3', '4']], by decide, by decide, by decide⟩
  have hungrouped : ¬ plain.Grouped "-12,34.5".toList := by
    rw [← PlainDecimal.commasFit_iff_grouped (by decide)]
    decide
  have hread : readNumber "-1,234.5" = some (-1234.5) := by
    rw [(readNumber_commasPut.1 plain _ hfirst (by decide)).1 hgrouped, readNumber_commasPut.2.1]
    decide +kernel
  refine ⟨plain, by decide, ⟨hfirst, hgrouped, hread⟩, ⟨hsecond, hungrouped, ?_⟩, ?_⟩
  · exact (readNumber_commasPut.1 plain _ hsecond (by decide)).2 hungrouped
  · exact (readNumber_commasPut.2.2 " " "-1,234.5" "\t" (by decide) (by decide)).trans hread

/-! ## Commas found in a number -/

/-- A text with commas that part the digits before its point into groups of three, of
which the first may be shorter.  Behind the point there is no comma and no other point. -/
def IsGrouped (text : List Char) : Prop :=
  ∃ sign groups tail, IsSign sign ∧ (∀ group ∈ groups, Digits group) ∧ InThrees groups ∧
    2 ≤ groups.length ∧ IsTail tail ∧ text = joinedGroups sign groups tail

/-- A text without a point that has such groups, but of its digits and its exponent
together: the mark of the exponent, its sign and its digits count as digits do. -/
def IsGroupedExponent (text : List Char) : Prop :=
  ∃ sign groups whole power exponent, IsSign sign ∧ Digits whole ∧ whole ≠ [] ∧
    IsExponent power exponent ∧ power ≠ [] ∧ groups.flatten = whole ++ power ∧ InThrees groups ∧
    2 ≤ groups.length ∧ text = joinedGroups sign groups []

section Found
variable {text : List Char}

theorem IsGrouped.exists_parts (h : IsGrouped text) :
    ∃ sign groups tail, GroupedParts sign groups tail ∧ Digits groups.flatten ∧
      text = joinedGroups sign groups tail := by
  obtain ⟨sign, groups, tail, hs, hd, hg, -, ht, rfl⟩ := h
  have hflatten : Digits groups.flatten := by
    intro c hc
    obtain ⟨group, hgroup, hc⟩ := List.mem_flatten.mp hc
    exact hd group hgroup c hc
  exact ⟨sign, groups, tail, .of_digits hs hg hflatten ht, hflatten, rfl⟩

theorem IsGrouped.commasFit (h : IsGrouped text) : commasFit text = true := by
  obtain ⟨_, _, _, hparts, -, rfl⟩ := h.exists_parts
  exact hparts.commasFit

theorem IsGroupedExponent.commasFit (h : IsGroupedExponent text) : commasFit text = true := by
  obtain ⟨sign, groups, whole, power, exponent, hs, hw, hne, hp, -, hf, hg, -, rfl⟩ := h
  exact (GroupedParts.of_inThrees hs hg hw hne hp hf (.inl rfl)).commasFit

/-- No text is grouped in both ways: the mark of an exponent is no digit. -/
theorem IsGroupedExponent.not_isGrouped (h : IsGroupedExponent text) : ¬ IsGrouped text := by
  intro hgrouped
  obtain ⟨sign, groups, tail, hparts, hd, rfl⟩ := hgrouped.exists_parts
  obtain ⟨sign', groups', whole, power, exponent, hs, hw, hne, hp, hpower, hf, hg, -, he⟩ := h
  have hparts' : GroupedParts sign' groups' [] := .of_inThrees hs hg hw hne hp hf (.inl rfl)
  -- without its commas, the text is digits with an exponent
  let plain : PlainDecimal := ⟨sign', whole, none, hs, hw, digits_nil, by simpa using hne⟩
  have hfilter : sign ++ groups.flatten ++ tail = plain.written ++ power := by
    rw [← hparts.filter_eq, he, hparts'.filter_eq, hf]
    simp [plain, PlainDecimal.written, PlainDecimal.tail, Decimal.pointed]
  obtain ⟨mark, power, rfl⟩ := List.exists_cons_of_ne_nil hpower
  have hmark := hp.head_eq mark rfl
  rcases hparts.of_decimal hp hfilter with ⟨-, ⟨-, htail⟩ | ⟨-, -, -, hgroups⟩⟩
  · have hpoint := hparts.tail.head_eq mark (by rw [htail]; rfl)
    rcases hmark with rfl | rfl <;> exact absurd hpoint (by decide)
  · have hdigit := hd mark (by rw [hgroups]; simp)
    rcases hmark with rfl | rfl <;> exact absurd hdigit (by decide)

/-- A text whose commas fit and that is a decimal without them is grouped in one of the
two ways. -/
theorem isGrouped_or_isGroupedExponent (hfit : commasFit text = true) (hcomma : ',' ∈ text)
    {decimal : Decimal} (hread : Decimal.read (text.filter (· != ',')) = some decimal) :
    IsGrouped text ∨ IsGroupedExponent text := by
  obtain ⟨signs, groups, tail, hparts, rfl⟩ := GroupedParts.of_commasFit hfit
  obtain ⟨plain, power, exponent, hp, htext, -⟩ := Decimal.read_eq_some_iff.mp hread
  rw [hparts.filter_eq] at htext
  have hlength := hparts.two_le_length hcomma
  obtain ⟨rfl, ⟨hgroups, -⟩ | ⟨hpower, htail, rfl, hgroups⟩⟩ := hparts.of_decimal hp htext
  · -- the groups hold nothing but the digits before the point
    have hd : Digits groups.flatten := hgroups ▸ plain.digits_whole
    exact .inl ⟨_, groups, tail, plain.isSign,
      fun group hg c hc => hd c (List.mem_flatten_of_mem hg hc),
      (groupsFit_iff_of_digits hd).mp hparts.fit, hlength, hparts.tail, rfl⟩
  · -- the groups hold an exponent as well
    exact .inr ⟨_, groups, plain.whole, power, exponent, plain.isSign, plain.digits_whole,
      plain.whole_ne_nil_of_tail htail, hp, hpower, hgroups,
      (groupsFit_iff_of_flatten plain.digits_whole hp hgroups).mp hparts.fit, hlength, rfl⟩

end Found

/-- **A text with a comma is a number exactly if it is grouped and finite**, but "grouped"
has two meanings here.  Either its commas part the digits before the point into groups of
three, of which the first may be shorter; or the text has no point, and its digits and
its exponent are in such groups together. -/
theorem readNumber_eq_some_iff_of_comma {source : String} {number : Float}
    (h : ',' ∈ trim source.toList) :
    readNumber source = some number ↔
      (IsGrouped (trim source.toList) ∨ IsGroupedExponent (trim source.toList)) ∧
        Decimal.readFinite ((trim source.toList).filter (· != ',')) = some number := by
  rw [readNumber_of_comma h]
  constructor
  · intro hread
    split at hread
    · rename_i hfit
      refine ⟨?_, hread⟩
      unfold Decimal.readFinite at hread
      split at hread
      · cases hread
      · rename_i decimal hdecimal
        exact isGrouped_or_isGroupedExponent hfit h hdecimal
    · cases hread
  · rintro ⟨hgrouped, hread⟩
    rw [if_pos (hgrouped.elim IsGrouped.commasFit IsGroupedExponent.commasFit), hread]

/-- The text below is grouped by its thousands; it needs no exponent for that. -/
theorem readNumber_eq_some_iff_of_comma_thousands :
    ',' ∈ trim " -1,234.5e2".toList ∧
      (IsGrouped (trim " -1,234.5e2".toList) ∨ IsGroupedExponent (trim " -1,234.5e2".toList)) ∧
      readNumber " -1,234.5e2" = some (-123450) := by
  have hcomma : ',' ∈ trim " -1,234.5e2".toList := by decide
  have hread : readNumber " -1,234.5e2" = some (-123450) := by decide +kernel
  exact ⟨hcomma, ((readNumber_eq_some_iff_of_comma hcomma).mp hread).1, hread⟩

/-- A comma may be no separator of thousands: here it stands between a digit and three
characters of which one is the mark of an exponent. -/
theorem readNumber_comma_before_exponent :
    (∃ number, readNumber "1,1e5" = some number) ∧ ',' ∈ trim "1,1e5".toList ∧
      ¬ IsGrouped (trim "1,1e5".toList) := by
  have hgrouped : IsGroupedExponent (trim "1,1e5".toList) :=
    ⟨[], [['1'], ['1', 'e', '5']], ['1', '1'], ['e', '5'], _, .inl rfl, by decide, by decide,
      @IsExponent.some 'e' [] ['5'] (.inl rfl) (.inl rfl) (by decide) (by decide), by decide,
      by decide, by decide, by decide, by decide⟩
  exact ⟨⟨1100000, by decide +kernel⟩, by decide, hgrouped.not_isGrouped⟩

end TagPath
