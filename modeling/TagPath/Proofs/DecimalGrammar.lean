import Mathlib
import TagPath.Text.Cut
import TagPath.Number.Decimal

/-! # The grammar of decimals

A plain decimal is a sign or none, digits, and perhaps a point with digits behind it; in
front of the point or behind it there is a digit (`PlainDecimal`).  A decimal is a plain
one with an exponent behind it, or with nothing (`IsExponent`).

**Reading accepts exactly the decimals** (`Decimal.read_eq_some_iff`), and what is read
is told by the parts.  In particular every plain decimal is read
(`PlainDecimal.read_written`).  Each part ends where the next one begins, since no
character can stand at both places: a digit is no sign, no point and no mark of an
exponent.
-/
namespace TagPath
open Text

/-! ## Digits and signs -/

/-- A run of digits, which may be empty. -/
def Digits (text : List Char) : Prop := ∀ c ∈ text, Decimal.isDigit c = true

/-- A single sign, or none. -/
def IsSign (text : List Char) : Prop := text = [] ∨ text = ['+'] ∨ text = ['-']

instance (text : List Char) : Decidable (Digits text) := List.decidableBAll _ text

instance (text : List Char) : Decidable (IsSign text) :=
  inferInstanceAs (Decidable (text = [] ∨ text = ['+'] ∨ text = ['-']))

theorem digits_nil : Digits [] := by simp [Digits]

/-- The other characters of a number are no digits. -/
theorem isDigit_mark {c : Char} (h : c ∈ ['+', '-', ',', '.', 'e', 'E']) :
    Decimal.isDigit c = false := by
  simp only [List.mem_cons, List.not_mem_nil, or_false] at h
  rcases h with rfl | rfl | rfl | rfl | rfl | rfl <;> rfl

theorem Digits.mark_not_mem {text : List Char} {mark : Char} (h : Digits text)
    (hm : Decimal.isDigit mark = false) : mark ∉ text := by
  intro hc
  have := h mark hc
  rw [hm] at this
  cases this

theorem IsSign.mem {text : List Char} {c : Char} (h : IsSign text) (hc : c ∈ text) :
    c = '+' ∨ c = '-' := by
  rcases h with rfl | rfl | rfl
  · cases hc
  · exact .inl (List.mem_singleton.mp hc)
  · exact .inr (List.mem_singleton.mp hc)

/-! ## Exponents -/

/-- What may stand behind a plain decimal, and the exponent it gives. -/
inductive IsExponent : List Char → Int → Prop
  /-- Nothing. -/
  | none : IsExponent [] 0
  /-- A mark, a sign or none, and digits. -/
  | some {mark : Char} {sign digits : List Char} (hm : mark = 'e' ∨ mark = 'E')
      (hs : IsSign sign) (hd : Digits digits) (hne : digits ≠ []) :
      IsExponent (mark :: (sign ++ digits))
        (if sign = ['-'] then -(Decimal.exponentOfDigits digits : Int)
          else Decimal.exponentOfDigits digits)

theorem IsExponent.mem {text : List Char} {exponent : Int} (h : IsExponent text exponent)
    {c : Char} (hc : c ∈ text) : Decimal.isDigit c = true ∨ c ∈ ['e', 'E', '+', '-'] := by
  cases h with
  | none => cases hc
  | some hm hs hd hne =>
    rcases List.mem_cons.mp hc with rfl | hc
    · rcases hm with rfl | rfl <;> simp
    · rcases List.mem_append.mp hc with hc | hc
      · rcases hs.mem hc with rfl | rfl <;> simp
      · exact .inl (hd c hc)

theorem IsExponent.point_not_mem {text : List Char} {exponent : Int}
    (h : IsExponent text exponent) : '.' ∉ text :=
  fun hm => absurd (h.mem hm) (by decide)

theorem IsExponent.head_eq {text : List Char} {exponent : Int} (h : IsExponent text exponent) :
    ∀ c ∈ text.head?, c = 'e' ∨ c = 'E' := by
  cases h with
  | none => simp
  | some hm => simpa using hm

namespace Decimal

/-- What is taken off the front is a sign or nothing. -/
theorem exists_sign (text : List Char) :
    ∃ sign, IsSign sign ∧ text = sign ++ (takeSign text).2 ∧
      (takeSign text).1 = decide (sign = ['-']) := by
  unfold takeSign
  split
  · exact ⟨['-'], .inr (.inr rfl), rfl, rfl⟩
  · exact ⟨['+'], .inr (.inl rfl), rfl, rfl⟩
  · exact ⟨[], .inl rfl, rfl, rfl⟩

/-- A sign is taken off in front of what does not begin with another one. -/
theorem takeSign_append {sign rest : List Char} (hs : IsSign sign)
    (hr : ∀ c ∈ rest.head?, c ≠ '+' ∧ c ≠ '-') :
    takeSign (sign ++ rest) = (decide (sign = ['-']), rest) := by
  rcases hs with rfl | rfl | rfl
  · rw [List.nil_append, takeSign]
    · rfl
    · rintro tail rfl
      exact (hr '-' rfl).2 rfl
    · rintro tail rfl
      exact (hr '+' rfl).1 rfl
  · rfl
  · rfl

theorem digits_head_ne_sign {digits : List Char} (hd : Digits digits) :
    ∀ c ∈ digits.head?, c ≠ '+' ∧ c ≠ '-' := by
  intro c hc
  have hm := List.mem_of_mem_head? hc
  constructor
  · rintro rfl
    exact hd.mark_not_mem (isDigit_mark (by simp)) hm
  · rintro rfl
    exact hd.mark_not_mem (isDigit_mark (by simp)) hm

/-- **An exponent is read exactly from what is one.** -/
theorem readExponent_eq_some_iff {text : List Char} {exponent : Int} :
    readExponent text = some exponent ↔ IsExponent text exponent := by
  constructor
  · intro h
    unfold readExponent at h
    split at h
    · obtain rfl := Option.some.inj h
      exact .none
    · rename_i mark rest
      obtain ⟨sign, hs, hrest, hnegative⟩ := exists_sign rest
      split at h
      · rename_i hm
        dsimp only at h
        split at h
        · rename_i hdigits
          obtain rfl := Option.some.inj h
          rw [hnegative]
          conv => arg 1; rw [hrest]
          simpa using IsExponent.some hm hs (List.all_eq_true.mp hdigits.2) hdigits.1
        · cases h
      · cases h
  · intro h
    cases h with
    | none => rfl
    | @some mark sign digits hm hs hd hne =>
      have hall : digits.all isDigit = true := List.all_eq_true.mpr hd
      simp [readExponent, hm, takeSign_append hs (digits_head_ne_sign hd), hne, hall]

/-! ## Fractions -/

/-- The point and the digits behind it, or nothing. -/
def pointed : Option (List Char) → List Char
  | none => []
  | some digits => '.' :: digits

/-- What is taken off as a fraction is a point with digits behind it, or nothing. -/
theorem exists_fraction (text : List Char) :
    ∃ fraction?, Digits (fraction?.getD []) ∧ text = pointed fraction? ++ (takeFraction text).2 ∧
      (takeFraction text).1 = fraction?.getD [] := by
  unfold takeFraction
  split
  · rename_i rest
    refine ⟨some (rest.takeWhile isDigit), ?_, ?_, rfl⟩
    · exact fun c hc => List.all_eq_true.mp List.all_takeWhile c hc
    · rw [pointed, List.cons_append, List.takeWhile_append_dropWhile]
  · exact ⟨none, digits_nil, rfl, rfl⟩

/-- A fraction is taken off in front of what begins with neither a digit nor a point. -/
theorem takeFraction_append {fraction? : Option (List Char)} {rest : List Char}
    (hd : Digits (fraction?.getD [])) (hdigit : ∀ c ∈ rest.head?, isDigit c = false)
    (hpoint : ∀ c ∈ rest.head?, c ≠ '.') :
    takeFraction (pointed fraction? ++ rest) = (fraction?.getD [], rest) := by
  cases fraction? with
  | none =>
    rw [pointed, List.nil_append, takeFraction]
    · rfl
    · rintro tail rfl
      exact hpoint '.' rfl rfl
  | some digits =>
    obtain ⟨htake, hdrop⟩ := takeWhile_and_dropWhile_iff.mpr ⟨rfl, hd, hdigit⟩
    rw [pointed, List.cons_append, takeFraction]
    exact Prod.ext htake hdrop

end Decimal

/-! ## Plain decimals -/

/-- A decimal without an exponent, in its parts. -/
structure PlainDecimal where
  sign : List Char
  /-- The digits before the point, or all digits. -/
  whole : List Char
  /-- The digits behind the point, if there is a point. -/
  fraction? : Option (List Char)
  isSign : IsSign sign
  digits_whole : Digits whole
  digits_fraction : Digits (fraction?.getD [])
  /-- There is a digit. -/
  ne_nil : whole ++ fraction?.getD [] ≠ []

namespace PlainDecimal

/-- The digits behind the point. -/
def fraction (plain : PlainDecimal) : List Char := plain.fraction?.getD []

/-- What stands behind the digits before the point. -/
def tail (plain : PlainDecimal) : List Char := Decimal.pointed plain.fraction?

/-- The characters of a plain decimal. -/
def written (plain : PlainDecimal) : List Char := plain.sign ++ plain.whole ++ plain.tail

/-- The number that a plain decimal stands for. -/
def value (plain : PlainDecimal) : Decimal :=
  ⟨decide (plain.sign = ['-']), Decimal.natOfDigits (plain.whole ++ plain.fraction),
    -(plain.fraction.length : Int)⟩

variable (plain : PlainDecimal)

/-- A tail is empty or begins with a point. -/
theorem head_tail : ∀ c ∈ plain.tail.head?, c = '.' := by
  unfold tail Decimal.pointed
  split <;> simp

/-- Without a point there is a digit in front. -/
theorem whole_ne_nil_of_tail (h : plain.tail = []) : plain.whole ≠ [] := by
  have hne := plain.ne_nil
  unfold tail Decimal.pointed at h
  split at h
  · rename_i hf
    rwa [hf, Option.getD_none, List.append_nil] at hne
  · cases h

/-- The character behind the sign is a digit or the point. -/
theorem exists_head (rest : List Char) :
    ∃ c, (plain.whole ++ plain.tail ++ rest).head? = some c ∧
      (Decimal.isDigit c = true ∨ c = '.') := by
  rcases hw : plain.whole with _ | ⟨c, whole⟩
  · rcases ht : plain.tail with _ | ⟨c, tail⟩
    · exact absurd hw (plain.whole_ne_nil_of_tail ht)
    · exact ⟨c, rfl, .inr (plain.head_tail c (by rw [ht]; rfl))⟩
  · exact ⟨c, rfl, .inl (plain.digits_whole c (by rw [hw]; exact List.mem_cons_self))⟩

/-- The character behind the sign is not another sign. -/
theorem head_ne_sign (rest : List Char) :
    ∀ c ∈ (plain.whole ++ plain.tail ++ rest).head?, c ≠ '+' ∧ c ≠ '-' := by
  intro c hc
  obtain ⟨d, hd, hkind⟩ := plain.exists_head rest
  rw [hd] at hc
  obtain rfl := Option.some.inj hc
  rcases hkind with hdigit | rfl
  · constructor <;> rintro rfl <;> exact absurd hdigit (by decide)
  · decide

end PlainDecimal

/-! ## Decimals -/

namespace Decimal

/-- The same digits with another exponent. -/
def shift (decimal : Decimal) (exponent : Int) : Decimal :=
  { decimal with exponent := exponent + decimal.exponent }

@[simp] theorem shift_zero (decimal : Decimal) : decimal.shift 0 = decimal := by
  simp [shift]

/-- A plain decimal and an exponent are read as what they stand for together. -/
theorem read_written_append (plain : PlainDecimal) {power : List Char} {exponent : Int}
    (hp : IsExponent power exponent) :
    Decimal.read (plain.written ++ power) = some (plain.value.shift exponent) := by
  have hsign : takeSign (plain.written ++ power) =
      (decide (plain.sign = ['-']), plain.whole ++ plain.tail ++ power) := by
    have := takeSign_append plain.isSign (plain.head_ne_sign power)
    simpa [PlainDecimal.written] using this
  have hpower : ∀ c ∈ power.head?, isDigit c = false ∧ c ≠ '.' := by
    intro c hc
    rcases hp.head_eq c hc with rfl | rfl <;> decide
  have hbehind : ∀ c ∈ (plain.tail ++ power).head?, isDigit c = false := by
    intro c hc
    rw [List.head?_append] at hc
    rcases Option.or_eq_some_iff.mp hc with ht | ⟨-, hc⟩
    · rw [plain.head_tail c ht]
      rfl
    · exact (hpower c hc).1
  obtain ⟨hwhole, hrest⟩ :=
    takeWhile_and_dropWhile_iff.mpr ⟨List.append_assoc .., plain.digits_whole, hbehind⟩
  have hfraction : takeFraction (plain.tail ++ power) = (plain.fraction, power) :=
    takeFraction_append plain.digits_fraction (fun c hc => (hpower c hc).1)
      fun c hc => (hpower c hc).2
  have hne : ¬ (plain.whole = [] ∧ plain.fraction = []) := by
    rintro ⟨hw, hf⟩
    exact plain.ne_nil (List.append_eq_nil_iff.mpr ⟨hw, hf⟩)
  simp only [read, hsign, hwhole, hrest, hfraction, if_neg hne,
    readExponent_eq_some_iff.mpr hp]
  rfl

/-- **Reading accepts exactly the decimals**, and gives what their parts stand for. -/
theorem read_eq_some_iff {text : List Char} {decimal : Decimal} :
    Decimal.read text = some decimal ↔
      ∃ (plain : PlainDecimal) (power : List Char) (exponent : Int), IsExponent power exponent ∧
        text = plain.written ++ power ∧ decimal = plain.value.shift exponent := by
  constructor
  · intro h
    obtain ⟨sign, hs, htext, hnegative⟩ := exists_sign text
    obtain ⟨fraction?, hd, hbehind, hfraction⟩ :=
      exists_fraction ((takeSign text).2.dropWhile isDigit)
    simp only [read] at h
    split at h
    · cases h
    · rename_i hne
      split at h
      · cases h
      · rename_i exponent hexponent
        obtain rfl := Option.some.inj h
        rw [hfraction] at hne
        refine ⟨⟨sign, (takeSign text).2.takeWhile isDigit, fraction?, hs, ?_, hd, ?_⟩,
          _, exponent, readExponent_eq_some_iff.mp hexponent, ?_, ?_⟩
        · exact fun c hc => List.all_eq_true.mp List.all_takeWhile c hc
        · simpa using hne
        · simp only [PlainDecimal.written, PlainDecimal.tail, List.append_assoc]
          rw [← hbehind, List.takeWhile_append_dropWhile]
          exact htext
        · simp only [PlainDecimal.value, PlainDecimal.fraction, shift, hnegative, hfraction]
          rfl
  · rintro ⟨plain, power, exponent, hp, rfl, rfl⟩
    exact read_written_append plain hp

end Decimal

/-- A plain decimal is read as what it stands for. -/
theorem PlainDecimal.read_written (plain : PlainDecimal) :
    Decimal.read plain.written = some plain.value := by
  simpa using Decimal.read_written_append plain IsExponent.none

end TagPath
