import LineScript.Number.Dyadic

/-!
# The fewest digits that read back

The reals that round to a positive double form an interval around it.  The digits of its text are
the point `digits · 10 ^ exponent` of the coarsest decimal grid that meets the interval; of two such
points the nearer one, and the larger one if both are equally near.
-/

namespace LineScript.Number

structure Decimal where
  digits : Nat
  exponent : Int
  deriving DecidableEq, Repr

/-- A positive double and the interval of reals that round to it, in quarters of its last place.
The ends belong to the interval exactly when the significand is even. -/
structure Rounding where
  low : Nat
  value : Nat
  high : Nat
  closed : Bool
  exponent : Int
  deriving DecidableEq, Repr

def Rounding.ofDyadic (d : Dyadic) : Rounding :=
  let m := d.significand
  let powerOfTwo := m = fractionCount ∧ leastExponent < d.exponent
  { low := if powerOfTwo then 4 * m - 1 else 4 * m - 2
    value := 4 * m
    high := 4 * m + 2
    closed := m % 2 = 0
    exponent := d.exponent - 2 }

namespace Rounding

def binaryFactor (r : Rounding) (grid : Int) : Nat :=
  Nat.pow 2 r.exponent.toNat * Nat.pow 10 (-grid).toNat

def gridFactor (r : Rounding) (grid : Int) : Nat :=
  Nat.pow 2 (-r.exponent).toNat * Nat.pow 10 grid.toNat

def admits (r : Rounding) (grid : Int) (n : Nat) : Bool :=
  let point := n * r.gridFactor grid
  let low := r.low * r.binaryFactor grid
  let high := r.high * r.binaryFactor grid
  if r.closed then low ≤ point && point ≤ high else low < point && point < high

def onGrid? (r : Rounding) (grid : Int) : Option Nat :=
  let unit := r.gridFactor grid
  let value := r.value * r.binaryFactor grid
  let below := value / unit
  let above := below + 1
  match r.admits grid below, r.admits grid above with
  | false, false => none
  | true, false => some below
  | false, true => some above
  | true, true => some (if value - below * unit < above * unit - value then below else above)

/-- Looks through the grids from the coarsest, each ten times finer than the one before. -/
def search (r : Rounding) : Nat → Int → Decimal
  | 0, grid => { digits := r.value * r.binaryFactor grid / r.gridFactor grid, exponent := grid }
  | fuel + 1, grid =>
      match r.onGrid? grid with
      | some digits => { digits, exponent := grid }
      | none => r.search fuel (grid - 1)

def coarsestGrid (r : Rounding) : Int :=
  ((r.value.log2 : Int) + r.exponent) * 30103 / 100000 + 2

end Rounding

def shortest (d : Dyadic) : Decimal :=
  if d.significand = 0 then { digits := 0, exponent := 0 }
  else
    let r := Rounding.ofDyadic d
    r.search 20 r.coarsestGrid

end LineScript.Number
