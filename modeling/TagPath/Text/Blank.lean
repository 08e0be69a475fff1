/-! # Blank characters

Documents, paths and numbers all ignore blanks at certain edges.  A character is
blank when it has the property White_Space: the characters of ASCII that move the
pen without a mark, and seventeen beyond ASCII, among them the no-break space and
the ideographic space.  The property is given as a table of runs of code points.
-/
namespace TagPath.Text

/-- The first and the last code point of each run of blank characters. -/
def blankRuns : List (Nat × Nat) :=
  [(0x9, 0xD), (0x20, 0x20), (0x85, 0x85), (0xA0, 0xA0), (0x1680, 0x1680),
   (0x2000, 0x200A), (0x2028, 0x2029), (0x202F, 0x202F), (0x205F, 0x205F),
   (0x3000, 0x3000)]

/-- A character is blank when its code point lies in one of the runs. -/
def isBlank (c : Char) : Bool :=
  blankRuns.any fun run => run.1 ≤ c.toNat && c.toNat ≤ run.2

/-- The table holds twenty-five code points. -/
example : (blankRuns.map fun run => run.2 - run.1 + 1).sum = 25 := by decide

/-- What ASCII calls white space is blank. -/
theorem isBlank_of_isWhitespace {c : Char} (h : c.isWhitespace = true) : isBlank c = true := by
  simp only [Char.isWhitespace, Bool.or_eq_true, decide_eq_true_eq] at h
  rcases h with ((rfl | rfl) | rfl) | rfl <;> decide

/-- No mark of the two notations is blank. -/
theorem isBlank_mark {c : Char} (h : c ∈ ['<', '>', '/', '[', ']', '=', ',', '.']) :
    isBlank c = false := by
  simp only [List.mem_cons, List.not_mem_nil, or_false] at h
  rcases h with rfl | rfl | rfl | rfl | rfl | rfl | rfl | rfl <;> rfl

/-- Some blanks lie beyond ASCII; a zero-width space is none of them. -/
example : isBlank '\u3000' = true ∧ isBlank '\u0085' = true ∧ isBlank '\u200b' = false := by
  decide

end TagPath.Text
