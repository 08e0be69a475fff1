import TagPath.Number.Shortest

/-! # Positional writing

A number is written with its shortest digits and never with an exponent: zeros fill
the places up to the point, and a number without a fraction has no point.  A
negative number has a minus, also the negative zero.
-/
namespace TagPath

/-- Writes `coefficient * 10 ^ place` with all its places. -/
def positional (coefficient : Nat) (place : Int) : List Char :=
  let digits := Nat.toDigits 10 coefficient
  match place with
  | .ofNat zeros => digits ++ List.replicate zeros '0'
  | .negSucc zeros =>
    let fraction := zeros + 1
    let filled := List.replicate (fraction + 1 - digits.length) '0' ++ digits
    filled.take (filled.length - fraction) ++ '.' :: filled.drop (filled.length - fraction)

/-- The characters of a finite number. -/
def writtenNumber (number : Float) : List Char :=
  let bits := number.toBits.toNat
  let size := Binary.ofBits bits
  let digits :=
    if size.significand = 0 then ['0']
    else positional size.shortest.1 size.shortest.2
  if Binary.signBit ≤ bits then '-' :: digits else digits

/-- A finite number as text. -/
def renderNumber (number : Float) : String := String.ofList (writtenNumber number)

example : positional 125 (-2) = "1.25".toList ∧ positional 5 (-3) = "0.005".toList ∧
    positional 12 2 = "1200".toList := by
  decide

end TagPath
