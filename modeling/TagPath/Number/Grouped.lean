import TagPath.Text.Cut
import TagPath.Text.Trim
import TagPath.Number.Decimal

/-! # Numbers with grouped digits

The text of a number may part the digits before the point by commas into groups of
three, of which the first may be shorter: `1,234.5`.  Blanks around the text do not
matter.  The groups are judged by their lengths alone, which are counted in bytes; that
they hold digits is seen when the text is read without its commas.
-/
namespace TagPath
open Text

/-- The groups that commas make of a text. -/
def commaGroups (text : List Char) : List (List Char) := text.splitOn ','

/-- How many bytes a group takes up. -/
def groupSize (group : List Char) : Nat := (String.ofList group).utf8ByteSize

/-- Whether the groups have the lengths that grouping asks for: one to three bytes in
the first, three in each further one. -/
def groupsFit : List (List Char) → Bool
  | [] => false
  | head :: rest => 1 ≤ groupSize head && groupSize head ≤ 3 && rest.all (groupSize · == 3)

/-- A text before and after its first point; without a point nothing is after it. -/
def partAtPoint (text : List Char) : List Char × List Char :=
  match cut? ['.'] text with
  | none => (text, [])
  | some parts => parts

/-- Whether a character is a sign. -/
def isSignChar (c : Char) : Bool := c == '-' || c == '+'

/-- Whether the commas of a text stand where grouping allows them: only before the
point, which is the only one, and behind any signs at groups of three. -/
def commasFit (text : List Char) : Bool :=
  let (whole, fraction) := partAtPoint text
  !fraction.contains ',' && !fraction.contains '.' &&
    groupsFit (commaGroups (whole.dropWhile isSignChar))

/-- The finite number that a text stands for, if it stands for one. -/
def readNumber (source : String) : Option Float :=
  let text := trim source.toList
  if text.contains ',' then
    if commasFit text then Decimal.readFinite (text.filter (· != ',')) else none
  else Decimal.readFinite text

example : commasFit "-1,234.5".toList = true ∧ commasFit "1234,567".toList = false ∧
    commasFit "1,234.5,6".toList = false ∧ commasFit ",123".toList = false := by
  decide

end TagPath
