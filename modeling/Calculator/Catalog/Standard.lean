import Calculator.Catalog

/-!
The standard catalog: the four arithmetic operators, powers, factorials,
negation and parentheses. Powers group from the right, and a factorial binds
tightest. Negation is as loose as addition, so `-2^2` is `-(2^2)`.
-/

namespace Calculator

/-- What a subtraction may follow: the end of an operand. A minus sign anywhere
else is a negation. -/
def subtractionContext : List ContextPattern :=
  [.number, .bracket none (some .closing), .operator (some .factorial)]

namespace Operator

def addition : Operator :=
  { operation := .add, name := "add", spelling := "+", precedence := 0, arity := 2,
    placement := .between, associativity := .left, context := none }

def subtraction : Operator :=
  { operation := .subtract, name := "subtract", spelling := "-", precedence := 0, arity := 2,
    placement := .between, associativity := .left, context := some subtractionContext }

def negation : Operator :=
  { operation := .negate, name := "negate", spelling := "-", precedence := 0, arity := 1,
    placement := .before, associativity := .none, context := none }

def multiplication : Operator :=
  { operation := .multiply, name := "multiply", spelling := "*", precedence := 1, arity := 2,
    placement := .between, associativity := .left, context := none }

def division : Operator :=
  { operation := .divide, name := "divide", spelling := "/", precedence := 1, arity := 2,
    placement := .between, associativity := .left, context := none }

def exponentiation : Operator :=
  { operation := .exponentiate, name := "exponentiate", spelling := "^", precedence := 2,
    arity := 2, placement := .between, associativity := .right, context := none }

def factorial : Operator :=
  { operation := .factorial, name := "factorial", spelling := "!", precedence := 3, arity := 1,
    placement := .after, associativity := .none, context := none }

end Operator

def standardOperators : List Operator :=
  [.addition, .subtraction, .negation, .multiplication, .division, .exponentiation, .factorial]

def standardBrackets : List BracketPair :=
  [{ kind := .parenthesis, name := "parenthesis", opening := "(", closing := ")" }]

def Catalog.standard : Catalog := ⟨standardOperators, standardBrackets⟩

end Calculator
