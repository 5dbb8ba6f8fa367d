import StackScript.Number.Basic

/-!
# Shortest decimals

A finite number is written with **the fewest decimal digits that read back as
it**. Its magnitude is `m · 2 ^ q`; the reals that round to it form an interval
around it, which contains its ends exactly when `m` is even. On each decimal
grid, the multiples of some power of ten, the only candidates are the two
neighbours of the magnitude, and the coarsest grid with a neighbour inside the
interval has the fewest digits. Of two neighbours inside it the nearer is
taken, and of two equally near the greater.

Everything is exact arithmetic on natural numbers: magnitude and ends are
fractions over one denominator.
-/

namespace StackScript

/-- **A decimal**: `digits · 10 ^ exponent`. -/
structure Decimal where
  /-- The digits, as a natural number. -/
  digits : Nat
  /-- The power of ten that scales them. -/
  exponent : Int
deriving DecidableEq, Inhabited

/-- **The reals that round to one number**, as fractions over one
denominator. -/
structure Rounding where
  /-- The numerator of the number itself. -/
  value : Nat
  /-- The numerator of the least real that rounds to it. -/
  low : Nat
  /-- The numerator of the greatest real that rounds to it. -/
  high : Nat
  /-- The common denominator. -/
  denominator : Nat
  /-- Whether the two ends round to the number too. -/
  closed : Bool
deriving DecidableEq, Inhabited

namespace Rounding

/-- **The interval of a finite number's magnitude.** In quarters of the last
place the number is `4 m` and the interval reaches two quarters either way,
except that below a power of two the next number is half as far away and the
interval reaches one quarter down. -/
def ofNumber (n : Number) : Rounding :=
  let m := n.significand
  let below := if n.fraction = 0 ∧ 1 < n.biasedExponent then 1 else 2
  let q := n.exponent - 2
  let scale := 1 <<< q.toNat
  { value := 4 * m * scale
    low := (4 * m - below) * scale
    high := (4 * m + 2) * scale
    denominator := 1 <<< (-q).toNat
    closed := m % 2 = 0 }

/-- Whether a fraction over the common denominator lies in the interval. -/
def contains (r : Rounding) (numerator : Nat) : Bool :=
  if r.closed then r.low ≤ numerator && numerator ≤ r.high
  else r.low < numerator && numerator < r.high

/-- The interval seen from a grid of step `10 ^ k`, so that the multiples of
the denominator are the points of the grid. -/
def onGrid (r : Rounding) (k : Int) : Rounding :=
  let finer := Nat.pow 10 (-k).toNat
  { r with
    value := r.value * finer
    low := r.low * finer
    high := r.high * finer
    denominator := r.denominator * Nat.pow 10 k.toNat }

/-- **The point of the grid that stands for the number**, if one of its two
neighbours there rounds to it: the nearer, and of two equally near the
greater. -/
def nearest? (r : Rounding) : Option Nat :=
  let d := r.value / r.denominator
  let rest := r.value % r.denominator
  let lowIn := r.contains (d * r.denominator)
  let highIn := r.contains ((d + 1) * r.denominator)
  if lowIn && highIn then some (if 2 * rest < r.denominator then d else d + 1)
  else if lowIn then some d
  else if highIn then some (d + 1)
  else none

/-- The first hit on the grids `10 ^ k`, `10 ^ (k - 1)`, and so on, over `fuel`
grids. -/
def search (r : Rounding) : (fuel : Nat) → (k : Int) → Decimal
  | 0, k => ⟨(r.onGrid k).value / (r.onGrid k).denominator, k⟩
  | fuel + 1, k =>
    match (r.onGrid k).nearest? with
    | some d => ⟨d, k⟩
    | none => r.search fuel (k - 1)

end Rounding

namespace Number

/-- **The shortest decimal that reads back as the magnitude** of a finite
nonzero number. The search begins at a power of ten above the magnitude and
would end at the grid that holds it exactly: the whole numbers, or the
multiples of `10 ^ q` when the exponent `q` is negative. -/
def shortest (n : Number) : Decimal :=
  let r := Rounding.ofNumber n
  let top := (r.value / r.denominator).log2 / 3 + 1
  r.search (top + (-n.exponent).toNat + 1) top

end Number

end StackScript
