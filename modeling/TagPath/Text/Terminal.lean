/-! # Text for a terminal

Some control characters are not shown by a terminal but obeyed: they move the cursor,
ring, or begin an order.  A message quotes names and paths that anybody may have
chosen, so it shows such a character by its code.  The laws say that nothing in a
shown text is obeyed, and that a text without such characters is shown as it is.
-/
namespace TagPath.Text

/-- The controls of ASCII that a terminal obeys: bell, backspace, form feed, escape
and delete. -/
def steeringControls : List Char := ['\x07', '\x08', '\x0c', '\x1b', '\x7f']

/-- Whether a character is one of the thirty-two controls that follow ASCII. -/
def isLateControl (c : Char) : Bool := 0x80 ≤ c.toNat && c.toNat ≤ 0x9F

/-- Whether a terminal obeys the character.  Tabs, the ends of lines and the remaining
controls of ASCII are not counted. -/
def steers (c : Char) : Bool := steeringControls.contains c || isLateControl c

/-- The last two hexadecimal digits of a number. -/
def hexPair (n : Nat) : List Char := [Nat.digitChar (n / 16 % 16), Nat.digitChar (n % 16)]

/-- A character as it is shown: `\x` and the code for a control of ASCII, `\u` and the
code in braces for one that follows ASCII, and every other character as it is. -/
def shownChar (c : Char) : List Char :=
  if steeringControls.contains c then '\\' :: 'x' :: hexPair c.toNat
  else if isLateControl c then '\\' :: 'u' :: '\x7b' :: (hexPair c.toNat ++ ['\x7d'])
  else [c]

/-- A text as it is shown. -/
def shown (text : List Char) : List Char := text.flatMap shownChar

/-- An escape is shown by its code, and so is the control that stands for it and a
bracket. -/
example : shown ['a', '\x1b', '\u009b'] = "a\\x1b\\u\x7b9b\x7d".toList := by decide

/-- A tab, the end of a line and a no-break space are shown as they are. -/
example : shown ['\t', '\n', '\u00a0'] = ['\t', '\n', '\u00a0'] := by decide

theorem shown_append (first second : List Char) :
    shown (first ++ second) = shown first ++ shown second := List.flatMap_append

/-- No hexadecimal digit steers a terminal. -/
theorem steers_of_mem_hexPair {n : Nat} {c : Char} (h : c ∈ hexPair n) : steers c = false := by
  have digit : ∀ m < 16, steers (Nat.digitChar m) = false := by decide
  simp only [hexPair, List.mem_cons, List.not_mem_nil, or_false] at h
  rcases h with rfl | rfl
  · exact digit _ (Nat.mod_lt _ (by decide))
  · exact digit _ (Nat.mod_lt _ (by decide))

/-- Nothing that a character is shown by steers a terminal. -/
theorem steers_of_mem_shownChar {c d : Char} (h : d ∈ shownChar c) : steers d = false := by
  unfold shownChar at h
  split at h
  · rcases List.mem_cons.1 h with rfl | h
    · rfl
    rcases List.mem_cons.1 h with rfl | h
    · rfl
    exact steers_of_mem_hexPair h
  split at h
  · rcases List.mem_cons.1 h with rfl | h
    · rfl
    rcases List.mem_cons.1 h with rfl | h
    · rfl
    rcases List.mem_cons.1 h with rfl | h
    · rfl
    rcases List.mem_append.1 h with h | h
    · exact steers_of_mem_hexPair h
    · rw [List.mem_singleton.1 h]
      rfl
  · rename_i early late
    rw [List.mem_singleton.1 h]
    rw [steers, Bool.eq_false_iff.2 early, Bool.eq_false_iff.2 late]
    rfl

/-- Nothing in a shown text steers a terminal. -/
theorem steers_of_mem_shown {c : Char} {text : List Char} (h : c ∈ shown text) :
    steers c = false := by
  obtain ⟨_, _, h⟩ := List.mem_flatMap.1 h
  exact steers_of_mem_shownChar h

/-- A character that does not steer a terminal is shown as it is. -/
theorem shownChar_of_not_steers {c : Char} (h : steers c = false) : shownChar c = [c] := by
  obtain ⟨early, late⟩ := Bool.or_eq_false_iff.1 h
  simp only [shownChar, early, late, Bool.false_eq_true, if_false]

/-- A text without characters that steer a terminal is shown as it is. -/
theorem shown_of_not_steers {text : List Char} (h : ∀ c ∈ text, steers c = false) :
    shown text = text := by
  induction text with
  | nil => rfl
  | cons c rest ih =>
    have hc := shownChar_of_not_steers (h c List.mem_cons_self)
    have hr := ih fun d hd => h d (List.mem_cons_of_mem c hd)
    simp only [shown, List.flatMap_cons] at hr ⊢
    rw [hc, hr]
    rfl

end TagPath.Text
