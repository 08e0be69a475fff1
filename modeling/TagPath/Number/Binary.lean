/-! # Floating-point numbers as fractions

A finite floating-point number of 64 bits is `significand * 2 ^ exponent` with a
significand below `2 ^ 53`.  The real numbers nearer to it than to its neighbours
make an interval around it, whose ends lie halfway to the neighbours; the ends
themselves belong to it when the significand is even.  Everything here is exact, in
natural numbers over one denominator.
-/
namespace TagPath

/-- The parts of a finite floating-point number without its sign. -/
structure Binary where
  significand : Nat
  exponent : Int
deriving Repr, DecidableEq, Inhabited

/-- A positive number and the interval of what is rounded to it, as numerators over
one denominator. -/
structure Neighbourhood where
  low : Nat
  middle : Nat
  high : Nat
  denominator : Nat
  /-- Whether the two ends belong to the interval. -/
  closed : Bool
deriving Repr, DecidableEq, Inhabited

namespace Binary

/-- The least significand of the numbers that are not among the smallest: `2 ^ 52`. -/
def leadingBit : Nat := 4503599627370496

/-- How many exponents the bits can tell apart. -/
def scaleCount : Nat := 2048

/-- The bit of the sign, in front of all others: `2 ^ 63`. -/
def signBit : Nat := 9223372036854775808

/-- The exponent of the smallest numbers. -/
def leastExponent : Int := -1074

/-- The parts of the number with these bits, its sign bit left aside. -/
def ofBits (bits : Nat) : Binary :=
  let fraction := bits % leadingBit
  let scale := bits / leadingBit % scaleCount
  if scale = 0 then ⟨fraction, leastExponent⟩
  else ⟨leadingBit + fraction, leastExponent + (scale - 1 : Nat)⟩

/-- Whether the neighbour below is only half as far away as the one above. -/
def atPowerOfTwo (number : Binary) : Bool :=
  number.significand == leadingBit && leastExponent < number.exponent

/-- The interval of what is rounded to a number.  In quarters of the last place, its
ends are two away from the number, or one where the neighbour below is nearer. -/
def neighbourhood (number : Binary) : Neighbourhood :=
  let low := 4 * number.significand - (if number.atPowerOfTwo then 1 else 2)
  let middle := 4 * number.significand
  let high := 4 * number.significand + 2
  let closed := number.significand % 2 == 0
  match number.exponent - 2 with
  | .ofNat shift =>
    let unit := Nat.pow 2 shift
    ⟨low * unit, middle * unit, high * unit, 1, closed⟩
  | .negSucc shift => ⟨low, middle, high, Nat.pow 2 (shift + 1), closed⟩

end Binary
end TagPath
