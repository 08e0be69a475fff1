/-! # Decimals

A decimal is written with an optional sign, digits with an optional point among, in
front of or behind them, and an optional exponent.  It stands for the nearest
floating-point number of 64 bits, of two equally near ones the one whose
significand is even.
-/
namespace TagPath

/-- A signed number `coefficient * 10 ^ exponent`. -/
structure Decimal where
  negative : Bool
  coefficient : Nat
  exponent : Int
deriving Repr, DecidableEq, Inhabited

namespace Decimal

/-- Whether a character is one of the ten digits. -/
def isDigit (c : Char) : Bool := '0' ≤ c && c ≤ '9'

/-- What a digit counts. -/
def digitValue (c : Char) : Nat := c.toNat - '0'.toNat

/-- The number that a run of digits spells. -/
def natOfDigits (digits : List Char) : Nat :=
  digits.foldl (fun value c => 10 * value + digitValue c) 0

/-- How large an exponent grows before its further digits no longer matter. -/
def exponentBound : Nat := 65536

/-- The size of an exponent: digits behind one that reached the bound are passed
over. -/
def exponentOfDigits (digits : List Char) : Nat :=
  digits.foldl
    (fun value c => if value < exponentBound then 10 * value + digitValue c else value) 0

/-- Takes a sign off the front; tells whether it was a minus. -/
def takeSign : List Char → Bool × List Char
  | '-' :: rest => (true, rest)
  | '+' :: rest => (false, rest)
  | text => (false, text)

/-- Reads what stands behind the digits: nothing, or an exponent with digits. -/
def readExponent : List Char → Option Int
  | [] => some 0
  | c :: rest =>
    if c = 'e' ∨ c = 'E' then
      let (negative, digits) := takeSign rest
      if digits ≠ [] ∧ digits.all isDigit then
        let size : Int := exponentOfDigits digits
        some (if negative then -size else size)
      else none
    else none

/-- Takes a point and the digits behind it off the front, if there is a point. -/
def takeFraction : List Char → List Char × List Char
  | '.' :: rest => (rest.takeWhile isDigit, rest.dropWhile isDigit)
  | text => ([], text)

/-- Reads a decimal.  Before the exponent there must be a digit. -/
def read (text : List Char) : Option Decimal :=
  let (negative, unsigned) := takeSign text
  let whole := unsigned.takeWhile isDigit
  let (fraction, rest) := takeFraction (unsigned.dropWhile isDigit)
  if whole = [] ∧ fraction = [] then none
  else match readExponent rest with
    | none => none
    | some exponent =>
      some ⟨negative, natOfDigits (whole ++ fraction), exponent - fraction.length⟩

/-- The nearest floating-point number; a zero keeps its sign. -/
def toFloat (decimal : Decimal) : Float :=
  let size := match decimal.exponent with
    | .ofNat exponent => Float.ofScientific decimal.coefficient false exponent
    | .negSucc exponent => Float.ofScientific decimal.coefficient true (exponent + 1)
  if decimal.negative then -size else size

/-- The number that a decimal text stands for, unless it is too large to be finite. -/
def readFinite (text : List Char) : Option Float :=
  match read text with
  | none => none
  | some decimal => if decimal.toFloat.isFinite then some decimal.toFloat else none

example : read "-12.50".toList = some ⟨true, 1250, -2⟩ := by decide
example : read "5.".toList = some ⟨false, 5, 0⟩ ∧ read ".5e1".toList = some ⟨false, 5, 0⟩ := by
  decide
example : read ".".toList = none ∧ read "1e".toList = none ∧ read "inf".toList = none := by
  decide

end Decimal
end TagPath
