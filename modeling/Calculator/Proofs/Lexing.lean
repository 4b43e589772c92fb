import Calculator.Proofs.Scanning

/-!
What the symbols of a text are read from: numerals, and the spellings of the
operators and brackets of a catalog.
-/

namespace Calculator

/-- A non-empty run of ASCII digits. -/
structure IsNumeral (digits : List Char) : Prop where
  ne_nil : digits ≠ []
  isDigit : ∀ c ∈ digits, c.isDigit = true

theorem IsNumeral.of_all {digits : List Char} (hne : digits ≠ [])
    (hall : digits.all Char.isDigit = true) : IsNumeral digits :=
  ⟨hne, List.all_eq_true.mp hall⟩

/-- Whether a run of digits before this text ends where the text begins. -/
def EndsDigits (rest : List Char) : Prop := ∀ c ∈ rest.head?, c.isDigit = false

/-- A run of digits is cut off where it ends. -/
theorem span_digits {digits rest : List Char} (h : ∀ c ∈ digits, c.isDigit = true)
    (hrest : EndsDigits rest) :
    (digits ++ rest).takeWhile Char.isDigit = digits ∧
      (digits ++ rest).dropWhile Char.isDigit = rest := by
  have hstop : rest.takeWhile Char.isDigit = [] ∧ rest.dropWhile Char.isDigit = rest := by
    cases rest with
    | nil => exact ⟨rfl, rfl⟩
    | cons c others =>
        have hc : c.isDigit = false := hrest c rfl
        simp [hc]
  rw [List.takeWhile_append_of_pos h, List.dropWhile_append_of_pos h, hstop.1, hstop.2,
    List.append_nil]
  exact ⟨rfl, rfl⟩

theorem number?_append {digits rest : List Char} (h : IsNumeral digits)
    (hrest : EndsDigits rest) :
    number? (digits ++ rest) =
      some ⟨.number (digitsValue digits) (byteCount digits), rest⟩ := by
  obtain ⟨htake, hdrop⟩ := span_digits h.isDigit hrest
  unfold number?
  rw [htake, hdrop]
  split
  · exact absurd rfl h.ne_nil
  · rfl

theorem exists_numeral_of_number? {text : List Char} {lexeme : Lexeme}
    (h : number? text = some lexeme) :
    ∃ digits, IsNumeral digits ∧ text = digits ++ lexeme.rest ∧
      lexeme.symbol = .number (digitsValue digits) (byteCount digits) := by
  unfold number? at h
  split at h
  · contradiction
  · rename_i hne
    cases h
    exact ⟨text.takeWhile Char.isDigit,
      ⟨fun hnil => hne hnil, fun c member => List.all_eq_true.mp List.all_takeWhile _ member⟩,
      (List.takeWhile_append_dropWhile).symm, rfl⟩

theorem number?_of_not_digit {c : Char} (hc : c.isDigit = false) (rest : List Char) :
    number? (c :: rest) = none := by
  simp [number?, hc]

def startsWithDigit (text : List Char) : Bool := text.head?.any Char.isDigit

theorem EndsDigits.startsWithDigit_eq_false {text : List Char} (h : EndsDigits text) :
    startsWithDigit text = false := by
  cases text with
  | nil => rfl
  | cons c text => exact h c rfl

theorem IsNumeral.startsWithDigit_append {digits : List Char} (h : IsNumeral digits)
    (rest : List Char) : startsWithDigit (digits ++ rest) = true := by
  obtain ⟨c, others, rfl⟩ := List.exists_cons_of_ne_nil h.ne_nil
  exact h.isDigit c List.mem_cons_self

theorem number?_ne_none_iff {text : List Char} :
    number? text ≠ none ↔ startsWithDigit text = true := by
  cases text with
  | nil => simp [number?, startsWithDigit]
  | cons c text =>
      cases hc : c.isDigit with
      | false => simp [number?_of_not_digit hc, startsWithDigit, hc]
      | true => simp [number?, startsWithDigit, hc]

def Heads (spelling : String) (text : List Char) : Prop :=
  spelling ≠ "" ∧ spelling.toList <+: text

theorem after?_ne_none_iff {spelling : String} {text : List Char} :
    after? spelling text ≠ none ↔ Heads spelling text := by
  simp only [Option.ne_none_iff_exists', after?_eq_some_iff, exists_and_left, Heads, ne_eq,
    String.toList_eq_nil_iff, List.IsPrefix, @eq_comm _ text]

theorem Operator.lexeme?_ne_none_iff {o : Operator} {previous : Symbol} {text : List Char} :
    o.lexeme? previous text ≠ none ↔ o.permits previous = true ∧ Heads o.spelling text := by
  unfold Operator.lexeme?
  by_cases hpermits : o.permits previous = true
  · simp [hpermits, ← after?_ne_none_iff]
  · simp [hpermits]

theorem BracketPair.lexeme?_ne_none_iff {pair : BracketPair} {text : List Char} :
    pair.lexeme? text ≠ none ↔ ∃ side, Heads (pair.spelling side) text := by
  have hmember (side : Side) : side ∈ [Side.opening, Side.closing] := by cases side <;> simp
  simp only [lexeme?, ne_eq, List.findSome?_eq_none_iff, Option.map_eq_none_iff, hmember,
    true_implies, Classical.not_forall, ← after?_ne_none_iff]

section Marks

variable {mark c : Char} {rest : List Char}

theorem after?_cons {spelling : String} (h : spelling.toList = [mark]) (c : Char)
    (rest : List Char) : after? spelling (c :: rest) = if c = mark then some rest else none := by
  have hprefix : spelling.toList.isPrefixOf (c :: rest) = decide (c = mark) := by
    rw [h, List.isPrefixOf_cons_cons, List.isPrefixOf_nil_left, Bool.and_true, Bool.beq_comm]
    exact Bool.beq_eq_decide_eq c mark
  unfold after?
  rw [if_neg (by simp [h]), hprefix, h]
  simp

theorem Operator.lexeme?_cons {o : Operator} (h : o.spelling.toList = [mark]) (previous : Symbol)
    (c : Char) (rest : List Char) :
    o.lexeme? previous (c :: rest) =
      if o.permits previous ∧ c = mark then some ⟨.operator o mark.utf8Size, rest⟩ else none := by
  unfold lexeme?
  rw [after?_cons h, h]
  by_cases hpermits : o.permits previous = true
  · by_cases hc : c = mark <;> simp [hpermits, hc]
  · simp [hpermits]

/-- The spelling of an operator that is found stands at the head of the text. -/
theorem Operator.eq_of_lexeme? {o : Operator} {previous : Symbol} {text : List Char}
    {lexeme : Lexeme} (h : o.lexeme? previous text = some lexeme) :
    lexeme.symbol = .operator o (byteCount o.spelling.toList) ∧
      text = o.spelling.toList ++ lexeme.rest := by
  unfold lexeme? at h
  split at h
  · obtain ⟨rest, hafter, rfl⟩ := Option.map_eq_some_iff.mp h
    exact ⟨rfl, (after?_eq_some_iff.mp hafter).2⟩
  · contradiction

/-- The spelling of a bracket that is found stands at the head of the text. -/
theorem BracketPair.eq_of_lexeme? {pair : BracketPair} {text : List Char} {lexeme : Lexeme}
    (h : pair.lexeme? text = some lexeme) :
    ∃ side, lexeme.symbol = .bracket pair side (byteCount (pair.spelling side).toList) ∧
      text = (pair.spelling side).toList ++ lexeme.rest := by
  obtain ⟨side, -, hside⟩ := List.exists_of_findSome?_eq_some h
  obtain ⟨rest, hafter, rfl⟩ := Option.map_eq_some_iff.mp hside
  exact ⟨side, rfl, (after?_eq_some_iff.mp hafter).2⟩

end Marks

namespace Catalog

variable {catalog : Catalog} {previous : Symbol} {text : List Char} {entry : Operator}
  {length : Nat}

theorem mem_operators_of_mem_lexemes {lexeme : Lexeme} (h : lexeme ∈ catalog.lexemes previous text)
    (hsymbol : lexeme.symbol = .operator entry length) : entry ∈ catalog.operators := by
  rcases mem_lexemes.mp h with isOperator | isNumber | isBracket
  · obtain ⟨o, ho, hlexeme⟩ := List.exists_of_findSome?_eq_some isOperator
    rw [(Operator.eq_of_lexeme? hlexeme).1] at hsymbol
    cases hsymbol
    exact ho
  · obtain ⟨digits, -, -, hnumber⟩ := exists_numeral_of_number? isNumber
    rw [hnumber] at hsymbol
    contradiction
  · obtain ⟨pair, -, hlexeme⟩ := List.exists_of_findSome?_eq_some isBracket
    obtain ⟨side, hbracket, -⟩ := BracketPair.eq_of_lexeme? hlexeme
    rw [hbracket] at hsymbol
    contradiction

theorem Lexes.mem_operators {last : Symbol} {rest : List Char} {symbols : List Symbol}
    (h : catalog.Lexes previous text symbols last rest)
    (hmember : .operator entry length ∈ symbols) : entry ∈ catalog.operators := by
  induction h with
  | nil => contradiction
  | @cons _ _ _ _ lexeme _ hlexeme _ ih =>
      rcases List.mem_cons.mp hmember with hhead | later
      · exact mem_operators_of_mem_lexemes (hlexeme ▸ List.mem_singleton_self lexeme) hhead.symm
      · exact ih later

end Catalog

end Calculator
