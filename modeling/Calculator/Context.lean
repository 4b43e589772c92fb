import Calculator.Symbol

/-!
The context rule of operators: which symbol may stand just before one. It is
what tells two operators of one spelling apart, such as subtraction and
negation.
-/

namespace Calculator

/-- Whether the symbol belongs to the class of the pattern. No pattern admits
the finish sentinel. -/
def ContextPattern.matches : ContextPattern → Symbol → Bool
  | .start, .start => true
  | .number, .number .. => true
  | .operator operation, .operator entry _ => operation.all (· = entry.operation)
  | .bracket kind side, .bracket pair found _ =>
      kind.all (· = pair.kind) && side.all (· = found)
  | _, _ => false

def Operator.permits (o : Operator) (previous : Symbol) : Bool :=
  o.context.all fun patterns => patterns.any (·.matches previous)

end Calculator
