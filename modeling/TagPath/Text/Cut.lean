/-! # Cutting a text at a mark

`cut? mark text` looks for the first place where `mark` stands in `text` and gives
what stands before it and what stands after it.  Both notations of this library are
read by such cuts: a tag at its `>`, an element at its closing tag, a predicate at
its `]`.  Main statements: a cut loses nothing (`eq_of_cut?`), it fails only if the
mark stands nowhere (`cut?_eq_none_iff`), and it takes the first place
(`cut?_append_of_forall`).  `dropEnding?` takes a given ending off.
-/
namespace TagPath.Text

/-- Looks for `mark` from here on; `seen` is what was passed over, last first. -/
def cutFrom (mark seen : List Char) : List Char → Option (List Char × List Char)
  | [] => none
  | c :: rest =>
    if mark.isPrefixOf (c :: rest) then
      some (seen.reverse, (c :: rest).drop mark.length)
    else
      cutFrom mark (c :: seen) rest

/-- What stands before and after the first `mark` in `text`, for a `mark` that is
not empty. -/
def cut? (mark text : List Char) : Option (List Char × List Char) := cutFrom mark [] text

/-- What stands before `ending`, if the text ends with it. -/
def dropEnding? (ending text : List Char) : Option (List Char) :=
  if ending.isSuffixOf text then some (text.take (text.length - ending.length)) else none

/-! ## One character at a time -/

theorem cutFrom_eq_map (mark seen text : List Char) :
    cutFrom mark seen text =
      (cut? mark text).map fun parts => (seen.reverse ++ parts.1, parts.2) := by
  unfold cut?
  suffices h : ∀ seen' : List Char, cutFrom mark (seen' ++ seen) text =
      (cutFrom mark seen' text).map fun parts => (seen.reverse ++ parts.1, parts.2) by
    simpa using h []
  induction text with
  | nil => intro seen'; rfl
  | cons c rest ih =>
    intro seen'
    unfold cutFrom
    split
    · simp
    · exact ih (c :: seen')

@[simp] theorem cut?_nil (mark : List Char) : cut? mark [] = none := rfl

/-- A cut is made at once where the mark stands, and otherwise further on. -/
theorem cut?_cons (mark : List Char) (c : Char) (rest : List Char) :
    cut? mark (c :: rest) =
      if mark.isPrefixOf (c :: rest) then some ([], (c :: rest).drop mark.length)
      else (cut? mark rest).map fun parts => (c :: parts.1, parts.2) := by
  rw [cut?, cutFrom]
  split
  · rfl
  · rw [cutFrom_eq_map]; rfl

/-! ## Laws -/

/-- A cut loses nothing: the text is the part before, the mark and the part after. -/
theorem eq_of_cut? {mark text before after : List Char}
    (h : cut? mark text = some (before, after)) : text = before ++ mark ++ after := by
  induction text generalizing before with
  | nil => simp at h
  | cons c rest ih =>
    rw [cut?_cons] at h
    split at h
    · rename_i hp
      obtain ⟨tail, ht⟩ := List.isPrefixOf_iff_prefix.1 hp
      simp only [Option.some.injEq, Prod.mk.injEq] at h
      obtain ⟨rfl, rfl⟩ := h
      rw [← ht]
      simp
    · obtain ⟨⟨before', after'⟩, hc, he⟩ := Option.map_eq_some_iff.1 h
      simp only [Prod.mk.injEq] at he
      obtain ⟨rfl, rfl⟩ := he
      rw [ih hc]
      simp

/-- What stands after a cut is shorter than the text, by the mark at least. -/
theorem length_of_cut? {mark text before after : List Char}
    (h : cut? mark text = some (before, after)) :
    text.length = before.length + mark.length + after.length := by
  rw [eq_of_cut? h]; simp [Nat.add_assoc]

/-- A cut fails exactly if the mark stands nowhere in the text. -/
theorem cut?_eq_none_iff {mark text : List Char} (hm : mark ≠ []) :
    cut? mark text = none ↔ ¬ mark <:+: text := by
  induction text with
  | nil => simpa [List.infix_nil] using hm
  | cons c rest ih =>
    rw [cut?_cons, List.infix_cons_iff]
    split
    · rename_i hp
      simp [List.isPrefixOf_iff_prefix.1 hp]
    · rename_i hp
      rw [Option.map_eq_none_iff, ih]
      simp [mt List.isPrefixOf_iff_prefix.2 hp]

/-- The first place counts: if the mark does not begin anywhere in `before`, also
not so that it runs on into what follows, the cut is made right after `before`. -/
theorem cut?_append_of_forall {mark before after : List Char} (hm : mark ≠ [])
    (h : ∀ left right, before = left ++ right → right ≠ [] →
      ¬ mark <+: right ++ mark ++ after) :
    cut? mark (before ++ mark ++ after) = some (before, after) := by
  induction before with
  | nil =>
    obtain ⟨m, ms, rfl⟩ := List.exists_cons_of_ne_nil hm
    have hp : (m :: ms).isPrefixOf (m :: (ms ++ after)) = true :=
      List.isPrefixOf_iff_prefix.2 ⟨after, rfl⟩
    simp only [List.nil_append, List.cons_append]
    rw [cut?_cons, if_pos hp]
    simp
  | cons c rest ih =>
    have hp : ¬ mark.isPrefixOf (c :: (rest ++ mark ++ after)) = true := by
      intro hp
      exact h [] (c :: rest) rfl (by simp) (List.isPrefixOf_iff_prefix.1 hp)
    simp only [List.cons_append] at *
    rw [cut?_cons, if_neg hp, ih]
    · rfl
    · intro left right he
      exact h (c :: left) right (by rw [he]; rfl)

/-- For a mark of one character: the part before does not hold it. -/
theorem cut?_singleton_append {m : Char} {before : List Char} (h : m ∉ before)
    (after : List Char) : cut? [m] (before ++ m :: after) = some (before, after) := by
  have := @cut?_append_of_forall [m] before after (by simp) (by
    rintro left right rfl hr ⟨tail, ht⟩
    obtain ⟨r, rs, rfl⟩ := List.exists_cons_of_ne_nil hr
    simp only [List.cons_append, List.nil_append, List.cons.injEq] at ht
    exact h (by simp [ht.1]))
  simpa using this

/-- For a mark of one character, a cut is made exactly at its first place. -/
theorem cut?_singleton_eq_some_iff {m : Char} {text before after : List Char} :
    cut? [m] text = some (before, after) ↔ text = before ++ m :: after ∧ m ∉ before := by
  constructor
  · intro h
    refine ⟨by simpa using eq_of_cut? h, ?_⟩
    induction text generalizing before with
    | nil => simp at h
    | cons c rest ih =>
      rw [cut?_cons] at h
      split at h
      · simp only [Option.some.injEq, Prod.mk.injEq] at h
        simp [← h.1]
      · rename_i hp
        obtain ⟨⟨before', after'⟩, hc, he⟩ := Option.map_eq_some_iff.1 h
        simp only [Prod.mk.injEq] at he
        obtain ⟨rfl, rfl⟩ := he
        have hne : m ≠ c := by
          rintro rfl
          exact hp (by simp [List.isPrefixOf])
        simp [hne, ih hc]
  · rintro ⟨rfl, h⟩
    exact cut?_singleton_append h after

/-- For a mark of one character, a cut fails exactly if the text does not hold it. -/
theorem cut?_singleton_eq_none_iff {m : Char} {text : List Char} :
    cut? [m] text = none ↔ m ∉ text := by
  rw [cut?_eq_none_iff (by simp)]
  refine not_congr ⟨?_, fun h => ?_⟩
  · rintro ⟨left, right, rfl⟩
    simp
  · obtain ⟨left, right, rfl⟩ := List.append_of_mem h
    exact ⟨left, right, by simp⟩

/-- A text is parted where a run of accepted characters ends. -/
theorem takeWhile_and_dropWhile_iff {p : Char → Bool} {text before rest : List Char} :
    (text.takeWhile p = before ∧ text.dropWhile p = rest) ↔
      text = before ++ rest ∧ (∀ c ∈ before, p c = true) ∧ ∀ c ∈ rest.head?, p c = false := by
  constructor
  · rintro ⟨rfl, rfl⟩
    refine ⟨List.takeWhile_append_dropWhile.symm, ?_, ?_⟩
    · exact fun c hc => List.all_eq_true.1 List.all_takeWhile c hc
    · intro c hm
      have hhead := List.head?_dropWhile_not p text
      rw [Option.mem_def] at hm
      rw [hm] at hhead
      simpa using hhead
  · rintro ⟨rfl, hb, hr⟩
    rw [List.takeWhile_append_of_pos hb, List.dropWhile_append_of_pos hb]
    cases rest with
    | nil => exact ⟨List.append_nil before, rfl⟩
    | cons c rest =>
      have hc := hr c rfl
      exact ⟨by simp [hc], by simp [hc]⟩

/-- There is only one place where a run of accepted characters ends. -/
theorem append_inj_of_run {p : Char → Bool} {before before' rest rest' : List Char}
    (hb : ∀ c ∈ before, p c = true) (hr : ∀ c ∈ rest.head?, p c = false)
    (hb' : ∀ c ∈ before', p c = true) (hr' : ∀ c ∈ rest'.head?, p c = false)
    (h : before ++ rest = before' ++ rest') : before = before' ∧ rest = rest' := by
  obtain ⟨ht, hd⟩ := takeWhile_and_dropWhile_iff.2 ⟨rfl, hb, hr⟩
  obtain ⟨ht', hd'⟩ := takeWhile_and_dropWhile_iff.2 ⟨rfl, hb', hr'⟩
  rw [h] at ht hd
  exact ⟨ht.symm.trans ht', hd.symm.trans hd'⟩

theorem forall_bne_iff {m : Char} {text : List Char} :
    (∀ c ∈ text, (c != m) = true) ↔ m ∉ text := by
  constructor
  · intro h hm
    simpa using h m hm
  · intro h c hc
    simpa using fun he : c = m => h (he ▸ hc)

/-- What stands before the first place of a character, and what stands from there on. -/
theorem takeWhile_ne_and_dropWhile_ne_iff {m : Char} {text before rest : List Char} :
    (text.takeWhile (· != m) = before ∧ text.dropWhile (· != m) = rest) ↔
      text = before ++ rest ∧ m ∉ before ∧ ∀ c ∈ rest.head?, c = m := by
  rw [takeWhile_and_dropWhile_iff, forall_bne_iff]
  simp

/-- There is only one first place of a character. -/
theorem append_inj_of_not_mem {m : Char} {before before' rest rest' : List Char}
    (hb : m ∉ before) (hr : ∀ c ∈ rest.head?, c = m)
    (hb' : m ∉ before') (hr' : ∀ c ∈ rest'.head?, c = m)
    (h : before ++ rest = before' ++ rest') : before = before' ∧ rest = rest' :=
  append_inj_of_run (forall_bne_iff.2 hb) (fun c hc => by simp [hr c hc])
    (forall_bne_iff.2 hb') (fun c hc => by simp [hr' c hc]) h

/-- No part of a split text holds the separator. -/
theorem not_mem_of_mem_splitOn {separator : Char} {text part : List Char}
    (h : part ∈ text.splitOn separator) : separator ∉ part := by
  rw [List.splitOn_eq_splitOnP] at h
  induction text generalizing part with
  | nil =>
    obtain rfl : part = [] := by simpa using h
    exact List.not_mem_nil
  | cons c rest ih =>
    rw [List.splitOnP_cons_eq_if_modifyHead] at h
    split at h
    · rcases List.mem_cons.mp h with rfl | h
      · exact List.not_mem_nil
      · exact ih h
    · rename_i hc
      obtain ⟨first, others, he⟩ :=
        List.exists_cons_of_ne_nil (List.splitOnP_ne_nil (· == separator) rest)
      rw [he] at h ih
      rw [List.modifyHead_cons, List.mem_cons] at h
      rcases h with rfl | h
      · have hfirst := ih List.mem_cons_self
        intro hm
        rcases List.mem_cons.mp hm with rfl | hm
        · simp at hc
        · exact hfirst hm
      · exact ih (List.mem_cons_of_mem _ h)

/-- An ending is taken off exactly where it stands. -/
theorem dropEnding?_eq_some_iff {ending text before : List Char} :
    dropEnding? ending text = some before ↔ text = before ++ ending := by
  unfold dropEnding?
  constructor
  · intro h
    split at h
    · rename_i hs
      obtain ⟨start, rfl⟩ := List.isSuffixOf_iff_suffix.1 hs
      simpa using h
    · simp at h
  · rintro rfl
    rw [if_pos (List.isSuffixOf_iff_suffix.2 ⟨before, rfl⟩)]
    simp

theorem dropEnding?_eq_none_iff {ending text : List Char} :
    dropEnding? ending text = none ↔ ¬ ending <:+ text := by
  unfold dropEnding?
  split
  · rename_i hs
    simp [List.isSuffixOf_iff_suffix.1 hs]
  · rename_i hs
    simp [mt List.isSuffixOf_iff_suffix.2 hs]

end TagPath.Text
