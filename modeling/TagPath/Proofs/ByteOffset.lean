import Mathlib
import TagPath.Text.Cut

/-! # Byte offsets

A place in a text can be given by the number of bytes before it.  Not every number is a
place: it may lie behind the end, or inside a character that takes up several bytes.  A
slice between two offsets is there exactly if both are places and the first does not lie
behind the second (`slice?_eq_some_iff`); the offset at which a search finds a mark is
always a place (`offsetOf?_eq_some_iff`).
-/
namespace TagPath.Text
open String (utf8Len)

/-- The text before and behind a byte offset, if that is a place in the text. -/
def splitAtByte? : Nat → List Char → Option (List Char × List Char)
  | 0, text => some ([], text)
  | _ + 1, [] => none
  | offset + 1, c :: rest =>
    if c.utf8Size ≤ offset + 1 then
      (splitAtByte? (offset + 1 - c.utf8Size) rest).map fun parts => (c :: parts.1, parts.2)
    else none

/-- The text from a byte offset on. -/
def sliceFrom? (start : Nat) (text : List Char) : Option (List Char) :=
  (splitAtByte? start text).map (·.2)

/-- The text from one byte offset up to another one. -/
def slice? (start stop : Nat) (text : List Char) : Option (List Char) :=
  if start ≤ stop then
    (sliceFrom? start text).bind fun tail => (splitAtByte? (stop - start) tail).map (·.1)
  else none

/-- The byte offset of the first place where a mark stands. -/
def offsetOf? (mark text : List Char) : Option Nat :=
  (cut? mark text).map fun parts => utf8Len parts.1

/-! ## Places -/

/-- A place that is not the beginning lies behind the first character. -/
theorem splitAtByte?_cons {offset : Nat} (h : 0 < offset) (c : Char) (rest : List Char) :
    splitAtByte? offset (c :: rest) =
      if c.utf8Size ≤ offset then
        (splitAtByte? (offset - c.utf8Size) rest).map fun parts => (c :: parts.1, parts.2)
      else none := by
  cases offset with
  | zero => cases h
  | succ offset => rw [splitAtByte?]

theorem splitAtByte?_append (before after : List Char) :
    splitAtByte? (utf8Len before) (before ++ after) = some (before, after) := by
  induction before with
  | nil => cases after <;> rfl
  | cons c front ih =>
    have hpos := c.utf8Size_pos
    rw [String.utf8Len_cons, List.cons_append, splitAtByte?_cons (by omega),
      if_pos (Nat.le_add_left _ _), Nat.add_sub_cancel, ih]
    rfl

theorem eq_of_splitAtByte? {offset : Nat} {text before after : List Char}
    (h : splitAtByte? offset text = some (before, after)) :
    text = before ++ after ∧ utf8Len before = offset := by
  induction text generalizing offset before with
  | nil =>
    cases offset with
    | zero =>
      obtain ⟨rfl, rfl⟩ := Prod.mk.inj (Option.some.inj h)
      exact ⟨rfl, rfl⟩
    | succ offset => cases h
  | cons c rest ih =>
    rcases Nat.eq_zero_or_pos offset with rfl | hpos
    · obtain ⟨rfl, rfl⟩ := Prod.mk.inj (Option.some.inj h)
      exact ⟨rfl, rfl⟩
    · rw [splitAtByte?_cons hpos] at h
      split at h
      · rename_i hle
        obtain ⟨⟨front, tail⟩, hs, he⟩ := Option.map_eq_some_iff.mp h
        obtain ⟨rfl, rfl⟩ := Prod.mk.inj he
        obtain ⟨rfl, hl⟩ := ih hs
        refine ⟨rfl, ?_⟩
        rw [String.utf8Len_cons, hl]
        exact Nat.sub_add_cancel hle
      · cases h

/-- **The places in a text are the ends of its beginnings.** -/
theorem splitAtByte?_eq_some_iff {offset : Nat} {text before after : List Char} :
    splitAtByte? offset text = some (before, after) ↔
      text = before ++ after ∧ utf8Len before = offset := by
  refine ⟨eq_of_splitAtByte?, ?_⟩
  rintro ⟨rfl, rfl⟩
  exact splitAtByte?_append before after

/-- The places in a text are its character boundaries. -/
theorem isSome_splitAtByte?_iff {offset : Nat} {text : List Char} :
    (splitAtByte? offset text).isSome = true ↔
      (String.Pos.Raw.mk offset).IsValid (String.ofList text) := by
  rw [Option.isSome_iff_exists, String.Pos.Raw.isValid_iff_exists_append]
  constructor
  · rintro ⟨⟨before, after⟩, h⟩
    obtain ⟨rfl, rfl⟩ := splitAtByte?_eq_some_iff.mp h
    exact ⟨String.ofList before, String.ofList after, String.ofList_append,
      String.Pos.Raw.ext (String.utf8ByteSize_ofList before).symm⟩
  · rintro ⟨before, after, he, ho⟩
    refine ⟨(before.toList, after.toList), splitAtByte?_eq_some_iff.mpr ⟨?_, ?_⟩⟩
    · rw [← String.toList_append, ← he, String.toList_ofList]
    · rw [← String.utf8ByteSize_ofList, String.ofList_toList]
      exact (congrArg String.Pos.Raw.byteIdx ho).symm

/-! ## Slices -/

theorem sliceFrom?_eq_some_iff {start : Nat} {text tail : List Char} :
    sliceFrom? start text = some tail ↔ ∃ before, text = before ++ tail ∧ utf8Len before = start := by
  simp [sliceFrom?, splitAtByte?_eq_some_iff]

/-- **A slice is what stands between two places.** -/
theorem slice?_eq_some_iff {start stop : Nat} {text part : List Char} :
    slice? start stop text = some part ↔
      ∃ before after, text = before ++ part ++ after ∧ utf8Len before = start ∧
        start + utf8Len part = stop := by
  unfold slice?
  constructor
  · intro h
    split at h
    · obtain ⟨tail, ht, h⟩ := Option.bind_eq_some_iff.mp h
      obtain ⟨⟨part', after⟩, hs, rfl⟩ := Option.map_eq_some_iff.mp h
      obtain ⟨before, rfl, hb⟩ := sliceFrom?_eq_some_iff.mp ht
      obtain ⟨rfl, hp⟩ := splitAtByte?_eq_some_iff.mp hs
      dsimp only at hp ⊢
      exact ⟨before, after, (List.append_assoc _ _ _).symm, hb, by omega⟩
    · cases h
  · rintro ⟨before, after, rfl, rfl, rfl⟩
    have ht : sliceFrom? (utf8Len before) (before ++ part ++ after) = some (part ++ after) :=
      sliceFrom?_eq_some_iff.mpr ⟨before, List.append_assoc _ _ _, rfl⟩
    have hs : splitAtByte? (utf8Len part) (part ++ after) = some (part, after) :=
      splitAtByte?_eq_some_iff.mpr ⟨rfl, rfl⟩
    rw [if_pos (Nat.le_add_right _ _), ht, Option.bind_some, Nat.add_sub_cancel_left, hs]
    rfl

/-! ## Searches -/

theorem offsetOf?_eq_some_iff {mark text : List Char} {offset : Nat} :
    offsetOf? mark text = some offset ↔
      ∃ before after, cut? mark text = some (before, after) ∧ utf8Len before = offset := by
  simp [offsetOf?]

/-- Up to the first place of a character, or to the end. -/
theorem offsetOf?_getD (m : Char) (text : List Char) :
    (offsetOf? [m] text).getD (utf8Len text) = utf8Len (text.takeWhile (· != m)) := by
  unfold offsetOf?
  cases h : cut? [m] text with
  | none =>
    have hn := cut?_singleton_eq_none_iff.mp h
    have ht := (takeWhile_ne_and_dropWhile_ne_iff.mpr
      ⟨(List.append_nil text).symm, hn, by simp⟩).1
    rw [ht]
    rfl
  | some parts =>
    obtain ⟨before, after⟩ := parts
    obtain ⟨rfl, hn⟩ := cut?_singleton_eq_some_iff.mp h
    have ht := (takeWhile_ne_and_dropWhile_ne_iff.mpr
      ⟨(rfl : before ++ m :: after = before ++ m :: after), hn, by simp⟩).1
    rw [ht]
    rfl

end TagPath.Text
