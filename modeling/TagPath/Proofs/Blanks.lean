import TagPath.Text.Trim

/-! # Runs of blanks

Documents and paths are both read with blanks taken off at certain places.  What is
taken off is a run of blanks (`exists_trimStart`, `exists_trim`), what is left is
trimmed (`trimmed_trim`), and blanks put around a trimmed text are taken off again
(`trim_append`).  So "blanks may stand here" can be said without a reader.
-/
namespace TagPath
open Text

/-- A run of blanks, which may be empty. -/
def Blanks (text : List Char) : Prop := ∀ c ∈ text, isBlank c = true

instance (text : List Char) : Decidable (Blanks text) := List.decidableBAll _ text

theorem blanks_nil : Blanks [] := by simp [Blanks]

theorem Blanks.append {first second : List Char} (hf : Blanks first) (hs : Blanks second) :
    Blanks (first ++ second) := by
  intro c hc
  rcases List.mem_append.mp hc with hc | hc
  · exact hf c hc
  · exact hs c hc

theorem Blanks.mark_not_mem {mark : Char} {text : List Char} (h : Blanks text)
    (hb : isBlank mark = false) : mark ∉ text := by
  intro hm
  have := h mark hm
  rw [hb] at this
  exact absurd this (by decide)

/-- No tag begins in a run of blanks. -/
theorem Blanks.not_mem {text : List Char} (h : Blanks text) : '<' ∉ text :=
  h.mark_not_mem (isBlank_mark (by simp))

theorem Blanks.filter_eq_nil {text : List Char} (h : Blanks text) :
    text.filter (!isBlank ·) = [] := by
  simpa [List.filter_eq_nil_iff, Blanks] using h

/-! ## Trimmed texts -/

/-- A text with no blank at either end. -/
structure Trimmed (text : List Char) : Prop where
  first : ∀ c ∈ text.head?, isBlank c = false
  final : ∀ c ∈ text.getLast?, isBlank c = false

theorem trimStart_eq_self {text : List Char} (h : ∀ c ∈ text.head?, isBlank c = false) :
    trimStart text = text := by
  cases text with
  | nil => rfl
  | cons c rest => exact trimStart_cons (h c rfl) rest

theorem trimEnd_eq_self {text : List Char} (h : ∀ c ∈ text.getLast?, isBlank c = false) :
    trimEnd text = text :=
  dropEndWhile_eq_self h

theorem Trimmed.trim_eq {text : List Char} (h : Trimmed text) : trim text = text := by
  rw [trim, trimStart_eq_self h.first, trimEnd_eq_self h.final]

/-- What is taken off the start is a run of blanks. -/
theorem exists_trimStart (text : List Char) :
    ∃ gap, Blanks gap ∧ text = gap ++ trimStart text :=
  ⟨text.takeWhile isBlank, fun c hc => List.all_eq_true.mp List.all_takeWhile c hc,
    List.takeWhile_append_dropWhile.symm⟩

/-- What is taken off the two ends are runs of blanks. -/
theorem exists_trim (text : List Char) :
    ∃ start final, Blanks start ∧ Blanks final ∧ text = start ++ trim text ++ final := by
  obtain ⟨start, hs, he⟩ := exists_trimStart text
  obtain ⟨final, hf, he'⟩ := dropEndWhile_append isBlank (trimStart text)
  refine ⟨start, final, hs, hf, ?_⟩
  rw [List.append_assoc]
  exact he.trans (congrArg (start ++ ·) he')

theorem isBlank_of_mem_head?_trimStart {text : List Char} :
    ∀ c ∈ (trimStart text).head?, isBlank c = false := by
  intro c hc
  have := List.head?_dropWhile_not isBlank text
  rw [trimStart, Option.mem_def] at hc
  rw [hc] at this
  exact this

theorem trimmed_trim (text : List Char) : Trimmed (trim text) where
  first := by
    intro c hc
    obtain ⟨run, -, he⟩ := dropEndWhile_append isBlank (trimStart text)
    have hc' : (dropEndWhile isBlank (trimStart text)).head? = some c := hc
    refine @isBlank_of_mem_head?_trimStart text c ?_
    rw [he, List.head?_append, hc']
    rfl
  final := by
    intro c hc
    obtain ⟨front, he⟩ := List.getLast?_eq_some_iff.mp hc
    exact dropEndWhile_concat_ne he

/-- What ends a trimmed text is trimmed, once the blanks at its start are taken off. -/
theorem Trimmed.trimStart {text tail : List Char} (h : Trimmed text) (hs : tail <:+ text) :
    Trimmed (trimStart tail) where
  first := isBlank_of_mem_head?_trimStart
  final := by
    intro c hc
    obtain ⟨front, rfl⟩ := (List.dropWhile_suffix isBlank).trans hs
    refine h.final c ?_
    rw [List.getLast?_append]
    have hc' : (tail.dropWhile isBlank).getLast? = some c := hc
    rw [hc']
    rfl

theorem trimEnd_append {text final : List Char} (h : Blanks final) :
    trimEnd (text ++ final) = trimEnd text :=
  dropEndWhile_append_of_all h text

/-- Blanks put around a text are taken off again. -/
theorem trim_append {start text final : List Char} (hs : Blanks start) (hf : Blanks final)
    (ht : ∀ c ∈ text.head?, isBlank c = false) : trim (start ++ text ++ final) = trimEnd text := by
  rw [trim, List.append_assoc, trimStart_append_of_all hs]
  cases text with
  | nil =>
    have hn : trimStart final = [] := by
      have := trimStart_append_of_all hf []
      rwa [List.append_nil] at this
    rw [List.nil_append, hn]
  | cons c rest =>
    rw [List.cons_append, trimStart_cons (ht c rfl), ← List.cons_append, trimEnd_append hf]

/-- More blanks around a text do not matter. -/
theorem trim_append_blanks {start final : List Char} (hs : Blanks start) (hf : Blanks final)
    (text : List Char) : trim (start ++ text ++ final) = trim text := by
  obtain ⟨start', final', hs', hf', he⟩ := exists_trim text
  have htrim := trimmed_trim text
  have houter : start ++ text ++ final = (start ++ start') ++ trim text ++ (final' ++ final) := by
    conv => lhs; rw [he]
    simp
  rw [houter, trim_append (hs.append hs') (hf'.append hf) htrim.first, trimEnd_eq_self htrim.final]

/-- Nothing is left of blanks, and only of them. -/
theorem trim_eq_nil_iff {text : List Char} : trim text = [] ↔ Blanks text := by
  constructor
  · intro h
    obtain ⟨start, final, hs, hf, he⟩ := exists_trim text
    rw [he, h, List.append_nil]
    exact hs.append hf
  · intro h
    have htrim := @trim_append text [] [] h blanks_nil nofun
    rwa [List.append_nil, List.append_nil] at htrim

end TagPath
