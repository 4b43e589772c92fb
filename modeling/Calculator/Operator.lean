import Calculator.Bracket

/-!
Operators as a catalog declares them. What an operator computes is one of seven
operations. How it is spelled, how tightly it binds, where it stands and after
what it may be written are free choices of the catalog, and several operators
may share one operation.
-/

namespace Calculator

inductive Operation where
  | add
  | subtract
  | negate
  | multiply
  | divide
  | exponentiate
  | factorial
  deriving DecidableEq, Repr

inductive Placement where
  | before
  | between
  | after
  deriving DecidableEq, Repr

def Placement.name : Placement → String
  | .before => "prefix"
  | .between => "infix"
  | .after => "postfix"

/-- How a chain of one operator groups: `a - b - c` is `(a - b) - c` for `left`
and `a - (b - c)` for `right`. Operators with one operand have `none`. -/
inductive Associativity where
  | left
  | right
  | none
  deriving DecidableEq, Repr

/-- A class of symbols that an operator may follow. An absent payload stands for
every value. -/
inductive ContextPattern where
  | start
  | number
  | operator (operation : Option Operation)
  | bracket (kind : Option BracketKind) (side : Option Side)
  deriving DecidableEq, Repr

/-- An operator of a catalog. A higher precedence binds tighter. With no context
the operator may follow anything; with an empty context it may follow nothing. -/
structure Operator where
  operation : Operation
  name : String
  spelling : String
  precedence : Nat
  arity : Nat
  placement : Placement
  associativity : Associativity
  context : Option (List ContextPattern)
  deriving DecidableEq, Repr

/-- Whether the last occurrence in a slice is the outermost one, as it is for an
operator with two operands that groups from the left. -/
def Operator.groupsFromLeft (o : Operator) : Bool :=
  o.arity = 2 && o.associativity = .left

end Calculator
