import Calculator.Number.Shortest

/-!
How numbers are written. Every text is made of the shortest decimal that reads
back; a layout says when the decimal point is placed among the digits and when
an exponent is used instead.
-/

namespace Calculator

namespace Decimal

def digits (d : Decimal) : List Char := Nat.toDigits 10 d.coefficient

/-- How many digits stand before the point; negative if zeros follow it. -/
def point (d : Decimal) : Int := d.digits.length + d.exponent

/-- Writes all digits, filled up with zeros to the left or right of the point.
`wholeMark` ends a number without a fractional part. -/
def positional (wholeMark : String) (d : Decimal) : List Char :=
  let digits := d.digits
  if d.point ≤ 0 then
    '0' :: '.' :: (List.replicate (-d.point).toNat '0' ++ digits)
  else if 0 ≤ d.exponent then
    digits ++ List.replicate d.exponent.toNat '0' ++ wholeMark.toList
  else
    digits.take d.point.toNat ++ '.' :: digits.drop d.point.toNat

/-- Writes one digit, the digits after it behind a point, and the exponent of
the first digit. -/
def scientific (d : Decimal) : List Char :=
  let exponent := 'e' :: (toString (d.point - 1)).toList
  match d.digits with
  | [] => exponent
  | [digit] => digit :: exponent
  | digit :: rest => digit :: '.' :: (rest ++ exponent)

end Decimal

structure Layout where
  /-- The least and greatest exponent of the leading digit that is written
  without an exponent; with `none` all numbers are. -/
  positional : Option (Int × Int)
  /-- What ends a whole number that is written without an exponent. -/
  wholeMark : String

namespace Layout

/-- Values are written without an exponent, and a whole number without a
point. -/
def value : Layout := ⟨none, ""⟩

/-- Log lines mark every whole number by `.0`. A number other than zero below
`1e-4` or from `1e16` on has an exponent. -/
def log : Layout := ⟨some (-4, 15), ".0"⟩

def fits (layout : Layout) (d : Decimal) : Bool :=
  match layout.positional with
  | none => true
  | some (least, greatest) =>
      d.coefficient = 0 || (least ≤ d.point - 1 && d.point - 1 ≤ greatest)

def magnitude (layout : Layout) (m : Magnitude) : List Char :=
  let decimal := m.shortest
  if layout.fits decimal then decimal.positional layout.wholeMark else decimal.scientific

/-- The text of a number. The sign of zero is written, the sign of NaN is not. -/
def write (layout : Layout) (x : Float) : String :=
  let signed := fun (negative : Bool) (text : List Char) =>
    String.ofList (if negative then '-' :: text else text)
  match Binary64.ofFloat x with
  | .nan => "NaN"
  | .infinite negative => signed negative ['i', 'n', 'f']
  | .finite negative m => signed negative (layout.magnitude m)

end Layout

end Calculator
