import Calculator.Cut

/-!
How a list of symbols is understood. A slice is cut around its loosest operator,
and its two sides are read in the same way, from the precedence of that operator
on. A bracket pair around a whole slice is taken off and its inside is read with
all operators. The result is a tree; where a slice has no meaning the tree has a
leaf that says so, and the rest is read nevertheless.
-/

namespace Calculator

/-- An expression tree. Nodes keep the symbols they were read from, because
diagnostics show them. -/
inductive Reading where
  | number (value : Float)
  | group (slice : List Symbol) (inside : Reading)
  | unary (cut : Cut) (operand : Reading)
  | binary (cut : Cut) (left right : Reading)
  | invalid (error : EvalError)
  | unresolved (slice : List Symbol)

def Symbol.reading : Symbol → Reading
  | .number value _ => .number value
  | symbol => .invalid (.unexpectedSymbol symbol.text)

namespace Catalog

/-- Reads a list of symbols with the operators of at least the given
precedence. Sentinels at either end are ignored, in every slice anew. -/
def reading (catalog : Catalog) (loosest : Nat) (symbols : List Symbol) : Reading :=
  match wrapped : unwrap? (dropSentinels symbols) with
  | some inner =>
      have := length_lt_of_unwrap? wrapped
      have := length_dropSentinels_le symbols
      .group (dropSentinels symbols) (catalog.reading 0 inner)
  | none =>
      match dropSentinels symbols with
      | [symbol] => symbol.reading
      | _ =>
          match found : catalog.cut? loosest (dropSentinels symbols) with
          | none => .unresolved (dropSentinels symbols)
          | some (.error error) => .invalid error
          | some (.ok cut) =>
              have := length_lt_of_cut? found
              have := length_dropSentinels_le symbols
              match cut.operator.placement with
              | .before => .unary cut (catalog.reading cut.operator.precedence cut.right)
              | .after => .unary cut (catalog.reading cut.operator.precedence cut.left)
              | .between =>
                  .binary cut (catalog.reading cut.operator.precedence cut.left)
                    (catalog.reading cut.operator.precedence cut.right)
termination_by symbols.length

end Catalog

end Calculator
