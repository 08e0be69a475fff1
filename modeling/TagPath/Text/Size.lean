/-! # The size of a text

However much memory there is, what is held in it has fewer than `2 ^ 63` bytes.  A longer
text is not made, and whatever asked for it is broken off there and then.
-/
namespace TagPath.Text

/-- What is held has fewer bytes than this, `2 ^ 63`. -/
def heldBound : Nat := 9223372036854775808

/-- Whether a text can be held. -/
def Held (text : String) : Prop := text.utf8ByteSize < heldBound

instance (text : String) : Decidable (Held text) :=
  inferInstanceAs (Decidable (text.utf8ByteSize < heldBound))

/-- A text that was put together, if it can be held. -/
def held? (text : String) : Option String := if Held text then some text else none

/-- A run of spaces, if it can be held. -/
def spaces? (count : Nat) : Option String :=
  if count < heldBound then some (String.ofList (List.replicate count ' ')) else none

theorem held?_eq_some_iff {text made : String} : held? text = some made ↔ Held text ∧ made = text := by
  unfold held?
  split <;> simp_all [eq_comm]

theorem held?_eq_none_iff {text : String} : held? text = none ↔ ¬ Held text := by
  simp [held?]

end TagPath.Text
