import Calculator.Context
import Calculator.Catalog
import Calculator.Diagnostic

/-!
Reading a text as symbols. At every position an operator, a number and a
bracket are looked for, each for itself, and exactly one of the three classes
must be found. Within a class the earlier catalog entry wins, so operators
whose spellings overlap are told apart by their order and their context.
-/

namespace Calculator

structure Lexeme where
  symbol : Symbol
  rest : List Char

def byteCount (text : List Char) : Nat :=
  text.foldr (fun c count => c.utf8Size + count) 0

@[simp] theorem byteCount_nil : byteCount [] = 0 := rfl

@[simp] theorem byteCount_cons (c : Char) (text : List Char) :
    byteCount (c :: text) = c.utf8Size + byteCount text := rfl

@[simp] theorem byteCount_append (first second : List Char) :
    byteCount (first ++ second) = byteCount first + byteCount second := by
  induction first with
  | nil => simp
  | cons c first ih => simp [ih, Nat.add_assoc]

/-- The text after a non-empty spelling at its head. An empty spelling is never
found. -/
def after? (spelling : String) (text : List Char) : Option (List Char) :=
  if spelling.toList = [] then none
  else if spelling.toList.isPrefixOf text then some (text.drop spelling.toList.length)
  else none

theorem after?_eq_some_iff {spelling : String} {text rest : List Char} :
    after? spelling text = some rest ↔ spelling.toList ≠ [] ∧ text = spelling.toList ++ rest := by
  unfold after?
  constructor
  · intro h
    split at h
    · contradiction
    · rename_i nonempty
      split at h
      · rename_i starts
        obtain ⟨tail, rfl⟩ := List.isPrefixOf_iff_prefix.mp starts
        rw [List.drop_left] at h
        exact ⟨nonempty, by rw [Option.some.inj h]⟩
      · contradiction
  · rintro ⟨nonempty, rfl⟩
    have starts : spelling.toList.isPrefixOf (spelling.toList ++ rest) = true :=
      List.isPrefixOf_iff_prefix.mpr (List.prefix_append _ _)
    rw [if_neg nonempty, if_pos starts, List.drop_left]

/-- The number that a run of decimal digits denotes, rounded to the nearest
binary number. -/
def digitsValue (digits : List Char) : Float :=
  Float.ofNat (digits.foldl (fun value digit => 10 * value + (digit.toNat - '0'.toNat)) 0)

def number? (text : List Char) : Option Lexeme :=
  match text.takeWhile Char.isDigit with
  | [] => none
  | digits =>
      some ⟨.number (digitsValue digits) (byteCount digits), text.dropWhile Char.isDigit⟩

def Operator.lexeme? (o : Operator) (previous : Symbol) (text : List Char) : Option Lexeme :=
  if o.permits previous then
    (after? o.spelling text).map fun rest =>
      ⟨.operator o (byteCount o.spelling.toList), rest⟩
  else none

/-- One side of this bracket pair, if the text starts with its spelling. The
opening side is tried first. -/
def BracketPair.lexeme? (pair : BracketPair) (text : List Char) : Option Lexeme :=
  [Side.opening, Side.closing].findSome? fun side =>
    (after? (pair.spelling side) text).map fun rest =>
      ⟨.bracket pair side (byteCount (pair.spelling side).toList), rest⟩

namespace Catalog

/-- The lexemes at the head of a text, at most one of each class. -/
def lexemes (catalog : Catalog) (previous : Symbol) (text : List Char) : List Lexeme :=
  [catalog.operators.findSome? (·.lexeme? previous text),
    number? text,
    catalog.brackets.findSome? (·.lexeme? text)].filterMap id

theorem mem_lexemes {catalog : Catalog} {previous : Symbol} {text : List Char}
    {lexeme : Lexeme} :
    lexeme ∈ catalog.lexemes previous text ↔
      catalog.operators.findSome? (·.lexeme? previous text) = some lexeme ∨
        number? text = some lexeme ∨
        catalog.brackets.findSome? (·.lexeme? text) = some lexeme := by
  simp only [lexemes, List.mem_filterMap, List.mem_cons, List.not_mem_nil, or_false, id_eq,
    exists_eq_right, @eq_comm _ (some lexeme)]

end Catalog

theorem length_lt_of_after? {spelling : String} {text rest : List Char}
    (h : after? spelling text = some rest) : rest.length < text.length := by
  obtain ⟨nonempty, rfl⟩ := after?_eq_some_iff.mp h
  have positive : 0 < spelling.toList.length := List.length_pos_iff.mpr nonempty
  rw [List.length_append]
  omega

theorem length_lt_of_number? {text : List Char} {lexeme : Lexeme}
    (h : number? text = some lexeme) : lexeme.rest.length < text.length := by
  unfold number? at h
  split at h
  · contradiction
  · rename_i digits nonempty
    cases h
    have whole := congrArg List.length (@List.takeWhile_append_dropWhile _ Char.isDigit text)
    have positive : 0 < (text.takeWhile Char.isDigit).length :=
      List.length_pos_iff.mpr nonempty
    rw [List.length_append] at whole
    show (text.dropWhile Char.isDigit).length < text.length
    omega

theorem Operator.length_lt_of_lexeme? {o : Operator} {previous : Symbol} {text : List Char}
    {lexeme : Lexeme} (h : o.lexeme? previous text = some lexeme) :
    lexeme.rest.length < text.length := by
  unfold Operator.lexeme? at h
  split at h
  · obtain ⟨rest, found, rfl⟩ := Option.map_eq_some_iff.mp h
    exact length_lt_of_after? found
  · contradiction

theorem BracketPair.length_lt_of_lexeme? {pair : BracketPair} {text : List Char}
    {lexeme : Lexeme} (h : pair.lexeme? text = some lexeme) :
    lexeme.rest.length < text.length := by
  obtain ⟨side, _, hside⟩ := List.exists_of_findSome?_eq_some h
  obtain ⟨rest, found, rfl⟩ := Option.map_eq_some_iff.mp hside
  exact length_lt_of_after? found

theorem Catalog.length_lt_of_mem_lexemes {catalog : Catalog} {previous : Symbol}
    {text : List Char} {lexeme : Lexeme} (h : lexeme ∈ catalog.lexemes previous text) :
    lexeme.rest.length < text.length := by
  rcases mem_lexemes.mp h with isOperator | isNumber | isBracket
  · obtain ⟨o, _, ho⟩ := List.exists_of_findSome?_eq_some isOperator
    exact Operator.length_lt_of_lexeme? ho
  · exact length_lt_of_number? isNumber
  · obtain ⟨pair, _, hpair⟩ := List.exists_of_findSome?_eq_some isBracket
    exact BracketPair.length_lt_of_lexeme? hpair

namespace Catalog

def lexFrom (catalog : Catalog) (previous : Symbol) (position : Nat) (text : List Char) :
    Traced LexError (List Symbol) :=
  if text = [] then pure []
  else
    match h : catalog.lexemes previous text with
    | [lexeme] =>
        have : lexeme.rest.length < text.length :=
          length_lt_of_mem_lexemes (h ▸ List.mem_singleton_self lexeme)
        do
          Traced.emit (.lexed position lexeme.symbol)
          let symbols ←
            catalog.lexFrom lexeme.symbol (position + lexeme.symbol.length) lexeme.rest
          pure (lexeme.symbol :: symbols)
    | [] => do
        Traced.emit (.noTokenMatches position)
        Traced.fail (.unexpected position (String.ofList text))
    | _ :: _ :: _ => do
        Traced.emit (.severalTokensMatch position)
        Traced.fail (.ambiguous position (String.ofList text))
termination_by text.length

/-- Reads a text as symbols between a start and a finish sentinel. White space
is not skipped. -/
def tokenize (catalog : Catalog) (source : String) : Traced LexError (List Symbol) := do
  Traced.emit (.tokenizing source.utf8ByteSize)
  let symbols ← catalog.lexFrom .start 0 source.toList
  let all := .start :: symbols ++ [.finish]
  Traced.emit (.tokenized all.length)
  pure all

end Catalog

end Calculator
