import Calculator.Symbol

/-!
Bracket nesting. A bracket that opens a span is closed by the first facing
bracket at its own depth; a slice need not be balanced, so either may be
missing. Everything is defined for both scan directions at once: a backward
scan is a forward scan of the reversed slice in which closing brackets open.
-/

namespace Calculator

inductive Direction where
  | forward
  | backward
  deriving DecidableEq, Repr

def Direction.opening : Direction → Side
  | .forward => .opening
  | .backward => .closing

def Direction.orient {α : Type} : Direction → List α → List α
  | .forward, symbols => symbols
  | .backward, symbols => symbols.reverse

/-- Where the `step`-th scanned symbol of a slice stands, and the step at which
a position is scanned. -/
def Direction.position (length : Nat) : Direction → Nat → Nat
  | .forward, step => step
  | .backward, step => length - 1 - step

/-- The position of the bracket that closes a span in which `depth` inner spans
are open, where `position` is that of the first symbol of the list. -/
def closer? (opener : Side) : Nat → Nat → List Symbol → Option Nat
  | _, _, [] => none
  | depth, position, symbol :: rest =>
      match symbol.side? with
      | none => closer? opener depth (position + 1) rest
      | some side =>
          if side = opener then closer? opener (depth + 1) (position + 1) rest
          else
            match depth with
            | 0 => some position
            | depth + 1 => closer? opener depth (position + 1) rest

/-- How many symbols of `rest` belong to the span that `symbol` opens, the
bracket that closes it included. -/
def spanLength? (opener : Side) (symbol : Symbol) (rest : List Symbol) : Option Nat :=
  if symbol.side? = some opener then closer? opener 0 1 rest else none

/-- The position of the bracket that pairs up with the one at `index`, scanning
in one direction. There is none if no bracket opens a span there, or if the
span is never closed. -/
def partner? (direction : Direction) (symbols : List Symbol) (index : Nat) : Option Nat :=
  if index < symbols.length then
    match (direction.orient symbols).drop (direction.position symbols.length index) with
    | [] => none
    | symbol :: rest =>
        (spanLength? direction.opening symbol rest).map fun length =>
          direction.position symbols.length
            (direction.position symbols.length index + length)
  else none

def unwrap? : List Symbol → Option (List Symbol)
  | [] => none
  | first :: rest =>
      if spanLength? .opening first rest = some rest.length then some rest.dropLast else none

/-- The symbols outside every span, with their positions counted from `position`
on. The first `skip` symbols belong to a span that is being passed over. -/
def outsideFrom (opener : Side) : Nat → Nat → List Symbol → List (Nat × Symbol)
  | _, _, [] => []
  | position, skip + 1, _ :: rest => outsideFrom opener (position + 1) skip rest
  | position, 0, symbol :: rest =>
      match spanLength? opener symbol rest with
      | some length => outsideFrom opener (position + 1) length rest
      | none => (position, symbol) :: outsideFrom opener (position + 1) 0 rest

/-- The symbols of a slice that lie outside every bracket pair, with their
positions in the slice, in the order in which they are scanned. A bracket that
opens no span in this direction is itself one of them. -/
def outside (direction : Direction) (symbols : List Symbol) : List (Nat × Symbol) :=
  let length := symbols.length
  (outsideFrom direction.opening 0 0 (direction.orient symbols)).map fun (step, symbol) =>
    (direction.position length step, symbol)

theorem length_lt_of_unwrap? {symbols inner : List Symbol} (h : unwrap? symbols = some inner) :
    inner.length < symbols.length := by
  cases symbols with
  | nil => contradiction
  | cons first rest =>
      simp only [unwrap?] at h
      split at h
      · cases h
        simp only [List.length_dropLast, List.length_cons]
        omega
      · contradiction

end Calculator
