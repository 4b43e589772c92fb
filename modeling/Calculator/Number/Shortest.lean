import Calculator.Number.Binary64

/-!
The shortest decimal that reads back as a given magnitude. The reals that round
to a magnitude form a window around it. Decimals with one exponent form a grid;
the coarsest grid with a point in the window gives the fewest digits, and of
two such points the nearer one is taken. All comparisons are made on naturals.
-/

namespace Calculator

/-- The decimal number `coefficient * 10 ^ exponent`. -/
structure Decimal where
  coefficient : Nat
  exponent : Int
  deriving DecidableEq, Repr

/-- The reals that round to `value`, from `low` to `high`. The four numbers
share one denominator, and the decimals under consideration are the multiples
of `unit`. The ends belong to the window exactly if `closed` holds. -/
structure Window where
  low : Nat
  value : Nat
  high : Nat
  unit : Nat
  closed : Bool
  deriving DecidableEq, Repr

namespace Window

/-- The window of a positive magnitude, with the whole numbers as its grid. The
ends are half way to the neighbouring numbers, hence half a unit of the last
place away. Below a power of two the neighbours are twice as dense. A tie goes
to the even significand, so the ends round to it exactly if it is even. -/
def ofMagnitude (m : Magnitude) : Window :=
  let below := if m.significand = Nat.pow 2 52 ∧ -1074 < m.exponent then 1 else 2
  let numerator := Nat.pow 2 (m.exponent - 2).toNat
  { low := (4 * m.significand - below) * numerator
    value := 4 * m.significand * numerator
    high := (4 * m.significand + 2) * numerator
    unit := Nat.pow 2 (2 - m.exponent).toNat
    closed := m.significand % 2 == 0 }

def onGrid (w : Window) (exponent : Int) : Window :=
  let finer := Nat.pow 10 (-exponent).toNat
  { low := w.low * finer
    value := w.value * finer
    high := w.high * finer
    unit := w.unit * Nat.pow 10 exponent.toNat
    closed := w.closed }

def contains (w : Window) (coefficient : Nat) : Bool :=
  let point := coefficient * w.unit
  if w.closed then decide (w.low ≤ point ∧ point ≤ w.high)
  else decide (w.low < point ∧ point < w.high)

/-- The grid point of the window that is nearest to the value. Only the two
neighbours of the value can be it; of two equally near points the larger one is
taken. -/
def nearest? (w : Window) : Option Nat :=
  let below := w.value / w.unit
  let above := below + 1
  match w.contains below, w.contains above with
  | true, true =>
      if 2 * w.value < (below + above) * w.unit then some below else some above
  | true, false => some below
  | false, true => some above
  | false, false => none

end Window

namespace Magnitude

/-- An exponent whose grid is too coarse or just coarse enough to have a point
in the window of a positive magnitude: `30103 / 100000` is the decimal
logarithm of two, rounded. -/
def coarsestGrid (m : Magnitude) : Int :=
  ((m.significand.log2 : Int) + m.exponent) * 30103 / 100000 + 1

/-- The shortest decimal that reads back as the magnitude. A whole number below
`2 ^ 53` is its own shortest decimal, because its neighbours are at most one
apart. Any other magnitude takes the coarsest grid that has a point in its
window. Seventeen digits always suffice, and the search starts at most one
grid above the leading digit, so twenty grids are enough. -/
def shortest (m : Magnitude) : Decimal :=
  match m.whole?.filter (· < Nat.pow 2 53) with
  | some n => ⟨n, 0⟩
  | none =>
      let window := Window.ofMagnitude m
      let onGrid := fun (step : Nat) =>
        let exponent := m.coarsestGrid - step
        (window.onGrid exponent).nearest?.map fun coefficient => Decimal.mk coefficient exponent
      ((List.range 20).findSome? onGrid).getD ⟨0, 0⟩

end Magnitude

end Calculator
