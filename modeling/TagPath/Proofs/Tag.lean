import TagPath.Text.Cut
import TagPath.Document.Printer

/-! # Where a tag can stand

The reader does not count tags: it takes the first place where the closing tag of
an element stands, whatever is around it.  This module says where a tag can stand
in a text.  A tag begins with `<`, ends with `>` and holds no other `>`
(`IsTag`); names may hold anything else, also `<` and `/`.  So a part of a tag
that is cut off behind holds its `<` and no `>`, and a part that is cut off before
holds its `>` (`IsTag.mem_left`, `IsTag.mem_right`).

Two facts follow, on which everything about the reader rests.  A text is *sealed* if
behind each `<` in it there is a `>`; a tag that stands in a sealed text and what
follows it stands in one of them alone (`IsTag.infix_append_iff`).  And the reader's
cut is made exactly at the first tag (`IsTag.cut?_eq_some_iff`).
-/
namespace TagPath
open Text

/-- A tag: `<`, then characters other than `>`, then `>`. -/
def IsTag (mark : List Char) : Prop :=
  ∃ inner, mark = '<' :: (inner ++ ['>']) ∧ '>' ∉ inner

theorem isTag_openingTag {name : List Char} (h : '>' ∉ name) : IsTag (openingTag name) :=
  ⟨name, rfl, h⟩

theorem isTag_closingTag {name : List Char} (h : '>' ∉ name) : IsTag (closingTag name) :=
  ⟨'/' :: name, rfl, by simp [h]⟩

namespace IsTag

theorem ne_nil {mark : List Char} (h : IsTag mark) : mark ≠ [] := by
  obtain ⟨inner, rfl, -⟩ := h
  exact List.cons_ne_nil _ _

/-- What is cut off a tag behind holds its `<`, and holds no `>`. -/
theorem mem_left {left right : List Char} (h : IsTag (left ++ right)) (hl : left ≠ [])
    (hr : right ≠ []) : '<' ∈ left ∧ '>' ∉ left := by
  obtain ⟨inner, he, hn⟩ := h
  obtain ⟨first, left, rfl⟩ := List.exists_cons_of_ne_nil hl
  obtain ⟨right, final, rfl⟩ := (List.eq_nil_or_concat right).resolve_left hr
  simp only [List.cons_append, List.cons.injEq, List.concat_eq_append] at he
  obtain ⟨rfl, he⟩ := he
  rw [← List.append_assoc] at he
  obtain ⟨rfl, -⟩ := List.append_inj' he rfl
  refine ⟨List.mem_cons_self, fun hm => ?_⟩
  rcases List.mem_cons.mp hm with hc | hm
  · exact absurd hc (by decide)
  · exact hn (List.mem_append_left _ hm)

/-- What is cut off a tag before holds its `>`. -/
theorem mem_right {left right : List Char} (h : IsTag (left ++ right)) (hr : right ≠ []) :
    '>' ∈ right := by
  obtain ⟨inner, he, -⟩ := h
  obtain ⟨right, final, rfl⟩ := (List.eq_nil_or_concat right).resolve_left hr
  have he' : (left ++ right) ++ [final] = ('<' :: inner) ++ ['>'] := by
    simpa using he
  obtain ⟨-, hf⟩ := List.append_inj' he' rfl
  rw [List.cons.inj hf |>.1]
  simp

end IsTag

/-! ## Sealed texts -/

/-- A text out of which no tag can reach: behind each `<` in it there is a `>`. -/
def Sealed (text : List Char) : Prop := ∀ tail, tail <:+ text → '<' ∈ tail → '>' ∈ tail

theorem sealed_of_not_mem {text : List Char} (h : '<' ∉ text) : Sealed text :=
  fun _ hs hm => absurd (hs.subset hm) h

theorem sealed_concat (front : List Char) : Sealed (front ++ ['>']) := by
  intro tail hs hm
  rcases List.suffix_concat_iff.mp hs with rfl | ⟨start, rfl, -⟩
  · simp at hm
  · simp

theorem sealed_openingTag (name : List Char) : Sealed (openingTag name) :=
  sealed_concat ('<' :: name)

theorem sealed_closingTag (name : List Char) : Sealed (closingTag name) :=
  sealed_concat ('<' :: '/' :: name)

theorem Sealed.append {first second : List Char} (hf : Sealed first) (hs : Sealed second) :
    Sealed (first ++ second) := by
  intro tail ht hm
  rcases List.suffix_or_suffix_of_suffix ht (List.suffix_append first second) with h | ⟨front, rfl⟩
  · exact hs tail h hm
  · rcases List.mem_append.mp hm with hm | hm
    · exact List.mem_append_left _ (hf front (List.suffix_append_self_iff.mp ht) hm)
    · exact List.mem_append_right _ (hs second (List.suffix_refl _) hm)

/-- **A tag that stands in a sealed text and what follows it stands in one of them
alone**: cut at the seal, it would hold its `<` and not yet a `>`. -/
theorem IsTag.infix_append_iff {mark text rest : List Char} (hm : IsTag mark)
    (ht : Sealed text) : mark <:+: text ++ rest ↔ mark <:+: text ∨ mark <:+: rest := by
  rw [List.infix_append_iff_ne_nil]
  constructor
  · rintro (h | h | ⟨left, right, hl, hr, rfl, hs, -⟩)
    · exact .inl h
    · exact .inr h
    · -- a tag across the seam has its `<` before the seam and no `>` there
      obtain ⟨hlt, hgt⟩ := hm.mem_left hl hr
      exact absurd (ht left hs hlt) hgt
  · rintro (h | h)
    · exact .inl h
    · exact .inr (.inl h)

/-- No tag stands in a text without `<`. -/
theorem IsTag.not_infix {mark text : List Char} (hm : IsTag mark) (h : '<' ∉ text) :
    ¬ mark <:+: text := by
  obtain ⟨inner, rfl, -⟩ := hm
  exact fun hi => h (hi.subset List.mem_cons_self)

/-- A tag that stands in a tag stands at its end. -/
theorem IsTag.infix_iff_suffix {mark tag : List Char} (hm : IsTag mark) (ht : IsTag tag) :
    mark <:+: tag ↔ mark <:+ tag := by
  refine ⟨?_, List.IsSuffix.isInfix⟩
  rintro ⟨start, final, rfl⟩
  by_cases hf : final = []
  · subst hf
    exact ⟨start, by simp⟩
  · exfalso
    have hgt : '>' ∈ mark := @IsTag.mem_right [] mark hm hm.ne_nil
    exact (ht.mem_left (by simp [hm.ne_nil]) hf).2 (List.mem_append_right start hgt)

/-! ## The first tag -/

/-- The mark does not stand in what a cut leaves before it. -/
theorem not_infix_of_cut? {mark text before after : List Char} (hm : mark ≠ [])
    (h : cut? mark text = some (before, after)) : ¬ mark <:+: before := by
  induction text generalizing before with
  | nil => simp at h
  | cons c rest ih =>
    rw [cut?_cons] at h
    split at h
    · simp only [Option.some.injEq, Prod.mk.injEq] at h
      simpa [← h.1, List.infix_nil] using hm
    · rename_i hp
      obtain ⟨⟨before', after'⟩, hc, he⟩ := Option.map_eq_some_iff.mp h
      simp only [Prod.mk.injEq] at he
      obtain ⟨rfl, rfl⟩ := he
      rw [List.infix_cons_iff]
      rintro (hpre | hin)
      · refine hp (List.isPrefixOf_iff_prefix.mpr (hpre.trans ?_))
        rw [eq_of_cut? hc]
        exact ⟨mark ++ after', by simp⟩
      · exact ih hc hin

/-- A tag begins before its own place only if it stands in what is before. -/
theorem IsTag.not_prefix_append {mark right after : List Char} (hm : IsTag mark)
    (hr : right ≠ []) (hn : ¬ mark <:+: right) : ¬ mark <+: right ++ mark ++ after := by
  intro hp
  rw [List.append_assoc] at hp
  rcases List.prefix_or_prefix_of_prefix hp (List.prefix_append right _) with h | ⟨tail, ht⟩
  · exact hn h.isInfix
  by_cases htail : tail = []
  · exact hn ⟨[], [], by simp [← ht, htail]⟩
  · -- `tail` ends the tag and begins it too, so its `>` stands where a tag has none
    have hgt : '>' ∈ tail := @IsTag.mem_right right tail (ht ▸ hm) htail
    have hpre : tail <+: mark ++ after := by
      apply (List.prefix_append_right_inj right).mp
      rw [ht]
      exact hp
    have hlt : tail.length < mark.length := by
      have hpos := List.length_pos_iff.mpr hr
      have := congrArg List.length ht
      rw [List.length_append] at this
      omega
    obtain ⟨front, hf⟩ :=
      List.prefix_of_prefix_length_le hpre (List.prefix_append mark after) (Nat.le_of_lt hlt)
    have hfront : front ≠ [] := by
      rintro rfl
      rw [List.append_nil] at hf
      exact absurd (congrArg List.length hf) (Nat.ne_of_lt hlt)
    exact (IsTag.mem_left (hf ▸ hm) htail hfront).2 hgt

/-- **A cut at a tag is made exactly at its first place.** -/
theorem IsTag.cut?_eq_some_iff {mark text before after : List Char} (hm : IsTag mark) :
    cut? mark text = some (before, after) ↔
      text = before ++ mark ++ after ∧ ¬ mark <:+: before := by
  constructor
  · intro h
    exact ⟨eq_of_cut? h, not_infix_of_cut? hm.ne_nil h⟩
  · rintro ⟨rfl, hn⟩
    refine cut?_append_of_forall hm.ne_nil ?_
    rintro left right rfl hr
    exact hm.not_prefix_append hr fun hi => hn (hi.trans (List.suffix_append left right).isInfix)

end TagPath
