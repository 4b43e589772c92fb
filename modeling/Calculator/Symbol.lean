import Calculator.Operator
import Calculator.Number.Layout

/-!
The symbols of an expression. A text is read as a list of symbols between two
sentinels. Operator and bracket symbols carry the catalog entry they were read
as, and every symbol carries the number of bytes it was read from.
-/

namespace Calculator

/-- One unit of an expression. Sentinels mark where a sequence starts and finishes. -/
inductive Symbol where
  | start
  | finish
  | number (value : Float) (length : Nat)
  | operator (entry : Operator) (length : Nat)
  | bracket (pair : BracketPair) (side : Side) (length : Nat)
  deriving DecidableEq

namespace Symbol

def length : Symbol → Nat
  | .start | .finish => 0
  | .number _ length | .operator _ length | .bracket _ _ length => length

def className : Symbol → String
  | .start => "start"
  | .finish => "end"
  | .number .. => "number"
  | .operator .. => "operation"
  | .bracket .. => "grouping"

/-- The symbol as text. Numbers are written by value, so leading zeros and
digits beyond the precision are not kept. -/
def text : Symbol → String
  | .start => "<start>"
  | .finish => "<end>"
  | .number value _ => Layout.value.write value
  | .operator entry _ => entry.spelling
  | .bracket pair side _ => pair.spelling side

def side? : Symbol → Option Side
  | .bracket _ side _ => some side
  | _ => none

def operator? : Symbol → Option Operator
  | .operator entry _ => some entry
  | _ => none

end Symbol

def spell (symbols : List Symbol) : String := String.join (symbols.map Symbol.text)

@[simp] theorem spell_nil : spell [] = "" := rfl

@[simp] theorem spell_cons (symbol : Symbol) (rest : List Symbol) :
    spell (symbol :: rest) = symbol.text ++ spell rest := by
  simp [spell]

def dropStart : List Symbol → List Symbol
  | .start :: rest => rest
  | symbols => symbols

def dropFinish (symbols : List Symbol) : List Symbol :=
  if symbols.getLast? = some .finish then symbols.dropLast else symbols

/-- The list without its outer sentinels. Sentinels elsewhere stay, and so does
a second one at either end. -/
def dropSentinels (symbols : List Symbol) : List Symbol := dropFinish (dropStart symbols)

theorem length_dropStart_le (symbols : List Symbol) :
    (dropStart symbols).length ≤ symbols.length := by
  unfold dropStart
  split <;> simp

theorem length_dropFinish_le (symbols : List Symbol) :
    (dropFinish symbols).length ≤ symbols.length := by
  unfold dropFinish
  split <;> simp

theorem length_dropSentinels_le (symbols : List Symbol) :
    (dropSentinels symbols).length ≤ symbols.length :=
  Nat.le_trans (length_dropFinish_le _) (length_dropStart_le _)

end Calculator
