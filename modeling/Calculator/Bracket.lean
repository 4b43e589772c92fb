/-!
Bracket pairs. A pair has a spelling for each side and a tag. Brackets pair up
by their tag, never by their spelling, so with a single tag every opening
bracket can be closed by any closing bracket.
-/

namespace Calculator

inductive Side where
  | opening
  | closing
  deriving DecidableEq, Repr

inductive BracketKind where
  | parenthesis
  deriving DecidableEq, Repr

structure BracketPair where
  kind : BracketKind
  name : String
  opening : String
  closing : String
  deriving DecidableEq, Repr

def BracketPair.spelling (pair : BracketPair) : Side → String
  | .opening => pair.opening
  | .closing => pair.closing

end Calculator
