import Calculator.Error

/-!
A catalog declares the operators and bracket pairs of an expression language.
The order of declaration matters: where two entries fit, the earlier one wins.
-/

namespace Calculator

/-- An operator can be applied if it takes one operand and stands before or
after it, or takes two and stands between them. Otherwise this is the error that
its use raises. -/
def Operator.defect? (o : Operator) : Option EvalError :=
  match o.arity, o.placement with
  | 1, .before | 1, .after | 2, .between => none
  | 1, placement | 2, placement => some (.invalidPlacement o.name placement)
  | arity, _ => some (.invalidArity o.name arity)

structure Catalog where
  operators : List Operator
  brackets : List BracketPair
  deriving DecidableEq, Repr

namespace Catalog

/-- The highest declared precedence, or 0 if there are no operators. -/
def tightest (catalog : Catalog) : Nat :=
  (catalog.operators.map Operator.precedence).foldl max 0

def tier (catalog : Catalog) (precedence : Nat) : List Operator :=
  catalog.operators.filter (·.precedence = precedence)

def defect? (catalog : Catalog) : Option EvalError :=
  catalog.operators.findSome? Operator.defect?

end Catalog

/-- The operators that may split a slice, in the order in which they are tried:
tier after tier from the given one on, each in the order of declaration. -/
def Catalog.ladder (catalog : Catalog) (loosest : Nat) : List Operator :=
  (catalog.operators.filter fun o => loosest ≤ o.precedence).mergeSort
    fun looser tighter => looser.precedence ≤ tighter.precedence

end Calculator
