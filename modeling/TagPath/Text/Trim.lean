import TagPath.Text.Blank

/-! # Trimming

Taking characters off the ends of a text: blanks, or whatever a test accepts.  The
laws say that what is left is a part of the text, and that a second trimming finds
nothing to take.
-/
namespace TagPath.Text

/-- Takes the characters that `p` accepts off the end, as many as there are. -/
def dropEndWhile (p : Char → Bool) (text : List Char) : List Char :=
  (text.reverse.dropWhile p).reverse

/-- The text without the blanks at its start. -/
def trimStart (text : List Char) : List Char := text.dropWhile isBlank

/-- The text without the blanks at its end. -/
def trimEnd (text : List Char) : List Char := dropEndWhile isBlank text

/-- The text without the blanks at its two ends. -/
def trim (text : List Char) : List Char := trimEnd (trimStart text)

/-! ## Taking off the end -/

/-- A text is what is left of it and a run of accepted characters. -/
theorem dropEndWhile_append (p : Char → Bool) (text : List Char) :
    ∃ run : List Char, (∀ c ∈ run, p c = true) ∧ text = dropEndWhile p text ++ run := by
  refine ⟨(text.reverse.takeWhile p).reverse, ?_, ?_⟩
  · intro c hc
    exact List.all_eq_true.1 List.all_takeWhile c (List.mem_reverse.1 hc)
  · rw [dropEndWhile, ← List.reverse_append, List.takeWhile_append_dropWhile,
      List.reverse_reverse]

/-- What is left does not end with an accepted character. -/
theorem dropEndWhile_concat_ne {p : Char → Bool} {text before : List Char} {c : Char}
    (h : dropEndWhile p text = before ++ [c]) : p c = false := by
  have hr : text.reverse.dropWhile p = c :: before.reverse := by
    have := congrArg List.reverse h
    simpa [dropEndWhile] using this
  have := List.head?_dropWhile_not p text.reverse
  simpa [hr] using this

/-- Nothing is taken off a text that ends with a refused character. -/
theorem dropEndWhile_concat {p : Char → Bool} {c : Char} (h : p c = false) (before : List Char) :
    dropEndWhile p (before ++ [c]) = before ++ [c] := by
  simp [dropEndWhile, h]

/-- Nothing is taken off a text that does not end with an accepted character. -/
theorem dropEndWhile_eq_self {p : Char → Bool} {text : List Char}
    (h : ∀ c ∈ text.getLast?, p c = false) : dropEndWhile p text = text := by
  rcases List.eq_nil_or_concat text with rfl | ⟨front, c, rfl⟩
  · rfl
  · rw [List.concat_eq_append] at h ⊢
    exact dropEndWhile_concat (h c (by simp)) front

/-- Accepted characters at the end do not matter. -/
theorem dropEndWhile_append_of_all {p : Char → Bool} {run : List Char}
    (h : ∀ c ∈ run, p c = true) (text : List Char) :
    dropEndWhile p (text ++ run) = dropEndWhile p text := by
  unfold dropEndWhile
  rw [List.reverse_append, List.dropWhile_append_of_pos]
  intro c hc
  exact h c (List.mem_reverse.1 hc)

/-- What is taken off the end of a text is taken off its second part, if anything of that
stays. -/
theorem dropEndWhile_append_of_exists {p : Char → Bool} {second : List Char}
    (h : ∃ c ∈ second, p c = false) (first : List Char) :
    dropEndWhile p (first ++ second) = first ++ dropEndWhile p second := by
  have hne : dropEndWhile p second ≠ [] := by
    intro hn
    obtain ⟨run, hrun, he⟩ := dropEndWhile_append p second
    obtain ⟨c, hc, hp⟩ := h
    rw [hn, List.nil_append] at he
    rw [he] at hc
    rw [hrun c hc] at hp
    cases hp
  have hstays : (second.reverse.dropWhile p).isEmpty = false := by simpa [dropEndWhile] using hne
  simp only [dropEndWhile, List.reverse_append, List.dropWhile_append, hstays,
    Bool.false_eq_true, if_false, List.reverse_reverse]

theorem length_dropEndWhile_le (p : Char → Bool) (text : List Char) :
    (dropEndWhile p text).length ≤ text.length := by
  obtain ⟨run, -, h⟩ := dropEndWhile_append p text
  have := congrArg List.length h
  rw [List.length_append] at this
  omega

/-! ## Blanks -/

theorem length_trimStart_le (text : List Char) : (trimStart text).length ≤ text.length :=
  (List.dropWhile_sublist isBlank).length_le

theorem length_trim_le (text : List Char) : (trim text).length ≤ text.length :=
  Nat.le_trans (length_dropEndWhile_le _ _) (length_trimStart_le text)

/-- Blanks at the start do not matter. -/
theorem trimStart_append_of_all {run : List Char} (h : ∀ c ∈ run, isBlank c = true)
    (text : List Char) : trimStart (run ++ text) = trimStart text := by
  unfold trimStart
  exact List.dropWhile_append_of_pos h

/-- Nothing is taken off a text that starts with a mark. -/
theorem trimStart_cons {c : Char} (h : isBlank c = false) (text : List Char) :
    trimStart (c :: text) = c :: text := by
  simp [trimStart, h]

end TagPath.Text
