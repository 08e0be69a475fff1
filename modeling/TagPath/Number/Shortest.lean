import TagPath.Number.Binary

/-! # Shortest digits

Of the decimals that are rounded to a given number, the one with the fewest digits
is sought.  The decimals with a fixed last place make a grid; a coarser grid has
fewer digits.  The grids are tried from the coarsest on.  On each, only the two
points next to the number matter: if any point of the grid lies in the number's
interval, one of these does.  Of two that do, the nearer is taken, and the upper one
if both are equally near.
-/
namespace TagPath

namespace Neighbourhood

/-- The last place of the finest grid: no number has digits beyond it. -/
def finestPlace : Int := -325

/-- How many grids lie between the finest and one coarser than every number. -/
def gridCount : Nat := 635

/-- The grid of a place as a fraction: points are the multiples of `10 ^ place`. -/
def gridUnit (place : Int) : Nat × Nat :=
  match place with
  | .ofNat power => (Nat.pow 10 power, 1)
  | .negSucc power => (1, Nat.pow 10 (power + 1))

/-- Whether the point `count` of a grid lies in the interval. -/
def holdsPoint (around : Neighbourhood) (unit : Nat × Nat) (count : Nat) : Bool :=
  let point := count * unit.1 * around.denominator
  let low := around.low * unit.2
  let high := around.high * unit.2
  if around.closed then low ≤ point && point ≤ high else low < point && point < high

/-- The point of a grid that lies in the interval nearest to its middle, if any. -/
def pointOn? (around : Neighbourhood) (place : Int) : Option Nat :=
  let unit := gridUnit place
  let step := unit.1 * around.denominator
  let middle := around.middle * unit.2
  let below := middle / step
  let above := below + 1
  match around.holdsPoint unit below, around.holdsPoint unit above with
  | false, false => none
  | true, false => some below
  | false, true => some above
  | true, true => if middle - below * step < above * step - middle then some below else some above

/-- The first point on the grids from the given one to the finest, with its place;
`grids` counts the grids that are finer. -/
def firstPoint (around : Neighbourhood) : Nat → Nat × Int
  | 0 => ((around.pointOn? finestPlace).getD 0, finestPlace)
  | grids + 1 =>
    let place := finestPlace + (grids + 1 : Nat)
    match around.pointOn? place with
    | some point => (point, place)
    | none => around.firstPoint grids

end Neighbourhood

/-- The shortest decimal that is rounded to the number: its digits as a natural
number, and the place of the last of them. -/
def Binary.shortest (number : Binary) : Nat × Int :=
  number.neighbourhood.firstPoint Neighbourhood.gridCount

/-- Three tenths need one digit, a third sixteen. -/
example : (Binary.ofBits 0x3fd3333333333333).shortest = (3, -1) ∧
    (Binary.ofBits 0x3fd5555555555555).shortest = (3333333333333333, -16) := by
  decide +kernel

end TagPath
