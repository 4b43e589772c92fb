import Calculator.Arithmetic
import Calculator.Diagnostic
import Calculator.Reading

/-!
The value of an expression. Operands are evaluated from left to right before
their operator is applied, and the first failure ends the evaluation.
-/

namespace Calculator

def Reading.evaluate : Reading → Traced EvalError Float
  | .number value => pure value
  | .group slice inside => do
      Traced.emit (.unwrapping slice)
      inside.evaluate
  | .unary cut operand => do
      let value ← operand.evaluate
      Traced.emit (.split cut)
      Traced.ofExcept (cut.operator.apply (.unary value))
  | .binary cut left right => do
      let first ← left.evaluate
      let second ← right.evaluate
      Traced.emit (.split cut)
      Traced.ofExcept (cut.operator.apply (.binary first second))
  | .invalid error => Traced.fail error
  | .unresolved slice => do
      Traced.emit (.unresolved slice)
      Traced.fail (.unmatchedSymbols (spell slice))

namespace Catalog

/-- Evaluates a list of symbols with the operators of at least the given
precedence. Inside brackets all operators count. -/
def evaluateFrom (catalog : Catalog) (loosest : Nat) (symbols : List Symbol) :
    Traced EvalError Float :=
  (catalog.reading loosest symbols).evaluate

def evaluate (catalog : Catalog) (symbols : List Symbol) : Traced EvalError Float := do
  Traced.emit (.evaluating symbols.length)
  let value ← catalog.evaluateFrom 0 symbols
  Traced.emit (.evaluated value)
  pure value

end Catalog

end Calculator
