import Calculator.Operator

/-!
What can go wrong when a text is read and when its symbols are evaluated, and
the message for each case.
-/

namespace Calculator

/-- Why a text could not be read. The position counts the bytes before the
failure, and the rest is the text from there on. -/
inductive LexError where
  | unexpected (position : Nat) (rest : String)
  | ambiguous (position : Nat) (rest : String)
  deriving DecidableEq, Repr

def LexError.message : LexError → String
  | .unexpected position rest => s!"Error at byte {position}: Unexpected syntax found at: {rest}"
  | .ambiguous position rest => s!"Error at byte {position}: Ambiguous syntax found at: {rest}"

/-- Why a list of symbols has no value: a symbol on its own is not a number, no
operator splits a slice, a catalog entry cannot be applied, or a factorial has
no value. Symbols are recorded by their text, entries by their name. -/
inductive EvalError where
  | unexpectedSymbol (text : String)
  | unmatchedSymbols (text : String)
  | invalidPlacement (name : String) (placement : Placement)
  | invalidArity (name : String) (arity : Nat)
  | negativeFactorial
  deriving DecidableEq, Repr

def EvalError.message : EvalError → String
  | .unexpectedSymbol text => s!"Unexpected symbol: {text}"
  | .unmatchedSymbols text => s!"Unmatched symbols: '{text}'"
  | .invalidPlacement name placement =>
      "Invalid notation: " ++ placement.name ++ " for operation: " ++ name
  | .invalidArity name arity => s!"Operation: {name} has invalid arity: {arity}"
  | .negativeFactorial => "Negative factorial not allowed"

inductive CalculationError where
  | lexing (error : LexError)
  | evaluation (error : EvalError)
  deriving DecidableEq, Repr

def CalculationError.message : CalculationError → String
  | .lexing error => error.message
  | .evaluation error => error.message

end Calculator
