import Calculator.Error
import Calculator.Number.Binary64

/-!
What the operations compute. Arithmetic is that of binary floating point, so a
division by zero is an infinity or NaN and no error. Only factorials can fail.
-/

namespace Calculator

inductive Operands where
  | unary (value : Float)
  | binary (left right : Float)
  deriving DecidableEq

def Operands.count : Operands → Nat
  | .unary _ => 1
  | .binary .. => 2

/-- The product `acc * n * (n - 1) * … * 2`, rounded after every step. -/
def descendingProduct (acc : Float) : Nat → Float
  | 0 | 1 => acc
  | n + 2 => descendingProduct (acc * Float.ofNat (n + 2)) (n + 1)

def greatestFiniteFactorial : Nat := 170

/-- The factorial of a number. It exists for whole numbers from zero on, both
zeros included, and for positive infinity; NaN is passed on. -/
def factorial (x : Float) : Except EvalError Float :=
  match Binary64.ofFloat x with
  | .nan => .ok x
  | .infinite negative => if negative then .error .negativeFactorial else .ok x
  | .finite negative magnitude =>
      match magnitude.whole? with
      | none => .error .negativeFactorial
      | some n =>
          if negative ∧ n ≠ 0 then .error .negativeFactorial
          else if greatestFiniteFactorial < n then .ok (1 / 0)
          else .ok (descendingProduct 1 n)

/-- Applies an operator to operands. Only its operation matters; an operation
that needs another number of operands fails with the number it was given. -/
def Operator.apply (o : Operator) : Operands → Except EvalError Float
  | .unary value =>
      match o.operation with
      | .negate => .ok (-value)
      | .factorial => factorial value
      | _ => .error (.invalidArity o.name 1)
  | .binary left right =>
      match o.operation with
      | .add => .ok (left + right)
      | .subtract => .ok (left - right)
      | .multiply => .ok (left * right)
      | .divide => .ok (left / right)
      | .exponentiate => .ok (Float.pow left right)
      | _ => .error (.invalidArity o.name 2)

end Calculator
