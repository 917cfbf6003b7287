import Triversion.Numeric.Double

/-! The shortest decimal that reads back as a given finite binary64 number. -/

namespace Triversion.Double

/-- Reals strictly inside these bounds, in quarters of its last place, round to the number. -/
def quarterBounds (d : Double) : Nat × Nat :=
  let m := d.significand
  -- Below a power of two the neighbour is only half as far away, except in the lowest binades.
  let gap := if m = twoTo 52 ∧ 0 < d.scale then 1 else 2
  (4 * m - gap, 4 * m + 2)

/-- A count of quarter units on the common scale of a decimal grid. -/
def quartersOnGrid (d : Double) (grid : Int) (quarters : Nat) : Nat :=
  quarters * twoTo d.scale * tenTo (-grid).toNat

/-- A multiple of a power of ten on the same scale. -/
def multipleOnGrid (grid : Int) (digits : Nat) : Nat :=
  digits * tenTo grid.toNat * twoTo 1076

/-- A multiple reads back if it lies inside the bounds, or on one and the significand is even. -/
def readsBack (d : Double) (grid : Int) (digits : Nat) : Bool :=
  let (low, high) := d.quarterBounds
  let here := multipleOnGrid grid digits
  let low := d.quartersOnGrid grid low
  let high := d.quartersOnGrid grid high
  if d.significand % 2 = 0 then low ≤ here && here ≤ high else low < here && here < high

/-- Of the multiples that read back the one nearest to the magnitude, the even one in a tie. -/
def nearestMultiple? (d : Double) (grid : Int) : Option Nat :=
  let here := d.quartersOnGrid grid (4 * d.significand)
  let step := multipleOnGrid grid 1
  let below := here / step
  let rest := here % step
  let candidates := [below, below + 1].filter fun digits => 0 < digits && d.readsBack grid digits
  -- Only the two neighbours of the magnitude on the grid can be nearest.
  match candidates with
  | [] => none
  | [only] => some only
  | _ =>
    if 2 * rest < step then some below
    else if step < 2 * rest then some (below + 1)
    else some (below + below % 2)

/-- The coarsest of the next grids with a multiple that reads back, and that multiple. -/
def coarsestFrom (d : Double) : Nat → Int → Nat × Int
  | 0, grid => ((d.nearestMultiple? grid).getD 0, grid)
  | finer + 1, grid =>
    match d.nearestMultiple? grid with
    | some digits => (digits, grid)
    | none => coarsestFrom d finer (grid - 1)

/-- The decimal with the fewest digits that reads back, as digits times a power of ten. -/
def shortest (d : Double) : Nat × Int :=
  -- No finite magnitude reaches 10 ^ 309, and 640 grids lie between there and the smallest one.
  if d.isZero then (0, 0) else d.coarsestFrom 640 309

end Triversion.Double
