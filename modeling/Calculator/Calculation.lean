import Calculator.Catalog.Standard
import Calculator.Evaluation
import Calculator.Lexing
import Calculator.Text.Blank

/-!
A calculation from text to value: white space is removed, the text is read as
symbols, and the symbols are evaluated, all with the standard catalog.
-/

namespace Calculator

/-- The symbols of an expression in the standard notation. White space may stand
anywhere, also between the digits of a number. Positions in errors refer to the
text without it. -/
def symbolsOf (source : String) : Traced LexError (List Symbol) :=
  Catalog.standard.tokenize (withoutBlanks source)

/-- The value of an expression in the standard notation. -/
def calculate (source : String) : Traced CalculationError Float := do
  let symbols ← (symbolsOf source).mapError .lexing
  (Catalog.standard.evaluate symbols).mapError .evaluation

end Calculator
