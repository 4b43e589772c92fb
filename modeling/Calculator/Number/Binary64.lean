/-!
The exact contents of a floating-point number. A finite number is a sign and a
magnitude `significand * 2 ^ exponent` over the naturals, so that questions
about its value (is it whole, which decimals lie near it) are answered by exact
arithmetic instead of by rounded comparisons.
-/

namespace Calculator

/-- The non-negative number `significand * 2 ^ exponent`. -/
structure Magnitude where
  significand : Nat
  exponent : Int
  deriving DecidableEq, Repr

inductive Binary64 where
  | nan
  | infinite (negative : Bool)
  | finite (negative : Bool) (magnitude : Magnitude)
  deriving DecidableEq, Repr

/-- Splits a number into sign bit, eleven bits of exponent and fifty-two bits
of fraction. Exponent field 0 holds zero and the subnormal numbers, which have
no hidden leading bit; field 2047 holds the infinities and NaN. -/
def Binary64.ofFloat (x : Float) : Binary64 :=
  let bits : Nat := x.toBits.toNat
  let negative := decide (Nat.pow 2 63 ≤ bits)
  let field : Nat := bits / Nat.pow 2 52 % Nat.pow 2 11
  let fraction : Nat := bits % Nat.pow 2 52
  if field = 2047 then
    if fraction = 0 then .infinite negative else .nan
  else if field = 0 then .finite negative ⟨fraction, -1074⟩
  else .finite negative ⟨Nat.pow 2 52 + fraction, (field : Int) - 1075⟩

def Magnitude.whole? (m : Magnitude) : Option Nat :=
  match m.exponent with
  | .ofNat e => some (m.significand * Nat.pow 2 e)
  | .negSucc e =>
      let denominator := Nat.pow 2 (e + 1)
      if m.significand % denominator = 0 then some (m.significand / denominator) else none

end Calculator
