import Calculator.Proofs.Grammar

/-!
The texts of phrases. A phrase is read as its symbols wherever no subtraction
may stand, since what precedes a minus sign is what tells subtraction and
negation apart. Conversely whatever is read is written with the numerals, marks
and brackets of the grammar.
-/

namespace Calculator

open Catalog

variable {rule : Rule} {previous : Symbol}

theorem spelling_of_mem_rules (h : rule ∈ rules) :
    rule.operator.spelling.toList = [rule.mark] ∧ rule.mark.utf8Size = 1 := by
  revert rule
  decide

/-- Whether the symbol ends an operand, so that a minus sign after it subtracts. -/
def Symbol.EndsOperand (symbol : Symbol) : Prop := Operator.subtraction.permits symbol = true

instance (symbol : Symbol) : Decidable symbol.EndsOperand :=
  inferInstanceAs (Decidable (_ = true))

/-- Only subtraction depends on what it follows. -/
theorem context_of_mem_rules (h : rule ∈ rules) :
    rule.operator.context = none ∨
      rule.operator = .subtraction ∧ rule.mark = '-' ∧ rule.shape ≠ .before := by
  revert rule
  decide

theorem permits_of_mem_rules (h : rule ∈ rules)
    (hprevious : rule.mark = '-' → (previous.EndsOperand ↔ rule.shape ≠ .before)) :
    rule.operator.permits previous = true := by
  rcases context_of_mem_rules h with hnone | ⟨hsubtract, hmark, hshape⟩
  · simp [Operator.permits, hnone]
  · rw [hsubtract]
    exact (hprevious hmark).mpr hshape

/-- A rule is read from its mark. Of the two rules with a minus sign it is the
one of subtraction exactly where an operand has ended. -/
theorem findSome?_mark (h : rule ∈ rules)
    (hprevious : rule.mark = '-' → (previous.EndsOperand ↔ rule.shape ≠ .before))
    (rest : List Char) :
    Catalog.standard.operators.findSome? (·.lexeme? previous (rule.mark :: rest)) =
      some ⟨rule.symbol, rest⟩ := by
  obtain ⟨looser, tighter, hrules⟩ := List.append_of_mem h
  have hoperators : Catalog.standard.operators =
      looser.map Rule.operator ++ rule.operator :: tighter.map Rule.operator := by
    rw [← List.map_cons, ← List.map_append, ← hrules]
    rfl
  refine List.findSome?_eq_some_iff.mpr ⟨_, rule.operator, _, hoperators, ?_, ?_⟩
  · obtain ⟨hspelling, hsize⟩ := spelling_of_mem_rules h
    rw [Operator.lexeme?_cons hspelling, if_pos ⟨permits_of_mem_rules h hprevious, rfl⟩, hsize]
    rfl
  · intro o member
    obtain ⟨other, hother, rfl⟩ := List.mem_map.mp member
    have hmember : other ∈ rules := by simp [hrules, hother]
    have hmarks := (List.pairwise_append.mp (hrules ▸ pairwise_marks)).2.2 other hother rule
      List.mem_cons_self
    rw [Operator.lexeme?_cons (spelling_of_mem_rules hmember).1, if_neg]
    rintro ⟨hpermits, hmark⟩
    obtain ⟨hsubtract, -, hshape⟩ := hmarks hmark.symm
    have hminus : ['-'] = [other.mark] := by
      rw [← (spelling_of_mem_rules hmember).1, hsubtract]
      rfl
    rw [hsubtract] at hpermits
    exact (hprevious (hmark.trans (List.singleton_inj.mp hminus).symm)).mp hpermits hshape

theorem bracket_eq_none {c : Char} (hopening : c ≠ '(') (hclosing : c ≠ ')') (rest : List Char) :
    Catalog.standard.brackets.findSome? (·.lexeme? (c :: rest)) = none := by
  simp [standard, standardBrackets, BracketPair.lexeme?, BracketPair.spelling, after?_cons,
    hopening, hclosing]

theorem lexemes_mark (h : rule ∈ rules)
    (hprevious : rule.mark = '-' → (previous.EndsOperand ↔ rule.shape ≠ .before))
    (rest : List Char) :
    Catalog.standard.lexemes previous (rule.mark :: rest) = [⟨rule.symbol, rest⟩] := by
  obtain ⟨hdigit, hopening, hclosing⟩ := mark_of_mem_rules h
  rw [lexemes, findSome?_mark h hprevious, number?_of_not_digit hdigit,
    bracket_eq_none hopening hclosing]
  rfl

theorem findSome?_eq_none {c : Char} (hc : ∀ rule ∈ rules, c ≠ rule.mark) (rest : List Char) :
    Catalog.standard.operators.findSome? (·.lexeme? previous (c :: rest)) = none := by
  rw [List.findSome?_eq_none_iff]
  intro o member
  obtain ⟨rule, hrule, rfl⟩ : ∃ rule ∈ rules, rule.operator = o := List.mem_map.mp member
  rw [Operator.lexeme?_cons (spelling_of_mem_rules hrule).1, if_neg]
  exact fun h => hc rule hrule h.2

theorem lexemes_numeral {digits rest : List Char} (h : IsNumeral digits)
    (hrest : EndsDigits rest) :
    Catalog.standard.lexemes previous (digits ++ rest) =
      [⟨.number (digitsValue digits) (byteCount digits), rest⟩] := by
  have hnumber := number?_append h hrest
  obtain ⟨c, others, rfl⟩ := List.exists_cons_of_ne_nil h.ne_nil
  have hc : c.isDigit = true := h.isDigit c List.mem_cons_self
  have hmark : ∀ rule ∈ rules, c ≠ rule.mark := by
    rintro rule hrule rfl
    rw [(mark_of_mem_rules hrule).1] at hc
    contradiction
  have hopening : c ≠ '(' := by
    rintro rfl
    contradiction
  have hclosing : c ≠ ')' := by
    rintro rfl
    contradiction
  rw [lexemes, hnumber, List.cons_append, findSome?_eq_none hmark,
    bracket_eq_none hopening hclosing]
  rfl

def bracketMark : Side → Char
  | .opening => '('
  | .closing => ')'

theorem lexemes_bracket (side : Side) (rest : List Char) :
    Catalog.standard.lexemes previous (bracketMark side :: rest) = [⟨parenthesis side, rest⟩] := by
  have hmark : ∀ rule ∈ rules, bracketMark side ≠ rule.mark := by
    intro rule hrule
    obtain ⟨-, hopening, hclosing⟩ := mark_of_mem_rules hrule
    cases side with
    | opening => exact hopening.symm
    | closing => exact hclosing.symm
  have hdigit : (bracketMark side).isDigit = false := by cases side <;> rfl
  have hbracket : Catalog.standard.brackets.findSome? (·.lexeme? (bracketMark side :: rest)) =
      some ⟨parenthesis side, rest⟩ := by
    cases side <;> rfl
  rw [lexemes, findSome?_eq_none hmark, number?_of_not_digit hdigit, hbracket]
  rfl

theorem endsOperand_symbol (h : rule ∈ rules) :
    rule.symbol.EndsOperand ↔ rule.shape = .after := by
  revert rule
  decide

/-- Two operands and the mark between them. -/
theorem Catalog.Lexes.between {middle last : Symbol} {leftText rightText rest : List Char}
    {left right : List Symbol}
    (hleft : Catalog.standard.Lexes previous (leftText ++ rule.mark :: (rightText ++ rest)) left
      middle (rule.mark :: (rightText ++ rest)))
    (hrule : rule ∈ rules) (hshape : rule.shape ≠ .before) (hmiddle : middle.EndsOperand)
    (hright : Catalog.standard.Lexes rule.symbol (rightText ++ rest) right last rest) :
    Catalog.standard.Lexes previous (leftText ++ rule.mark :: rightText ++ rest)
      (left ++ rule.symbol :: right) last rest := by
  have hmark := lexemes_mark hrule (fun _ => iff_of_true hmiddle hshape) (rightText ++ rest)
  rw [List.append_assoc, List.cons_append]
  exact hleft.append ((Lexes.single hmark).append hright)

/-- A phrase where no subtraction may stand is read as its symbols, whatever
follows it, and it ends an operand. -/
theorem Phrase.lexes {current : List Rule} {text rest : List Char} {symbols : List Symbol}
    {value : Except EvalError Float} (h : Phrase current text symbols value)
    (hsuffix : current <:+ rules) (hprevious : ¬ previous.EndsOperand)
    (hrest : EndsDigits rest) :
    ∃ last, last.EndsOperand ∧
      Catalog.standard.Lexes previous (text ++ rest) symbols last rest := by
  induction h generalizing previous rest with
  | @number digits hdigits =>
      have hnumber : (Symbol.number (digitsValue digits) (byteCount digits)).EndsOperand := rfl
      exact ⟨_, hnumber, .single (lexemes_numeral hdigits hrest)⟩
  | @group text symbols value _ ih =>
      have hclosing : EndsDigits (')' :: rest) := by
        intro c hc
        cases hc
        rfl
      have hopen : ¬ (parenthesis .opening).EndsOperand := by decide
      have hends : (parenthesis .closing).EndsOperand := by decide
      obtain ⟨last, -, hinside⟩ := ih (List.suffix_refl rules) hopen hclosing
      have hfirst := Lexes.single (@lexemes_bracket previous .opening (text ++ ')' :: rest))
      have hlast := Lexes.single (@lexemes_bracket last .closing rest)
      exact ⟨_, hends, by simpa [bracketMark] using hfirst.append (hinside.append hlast)⟩
  | tighter _ ih => exact ih (suffix_of_cons hsuffix) hprevious hrest
  | @fromLeft rule _ _ rightText _ _ _ _ hshape _ _ ihleft ihright =>
      have hrule := mem_rules_of_suffix hsuffix
      obtain ⟨middle, hmiddle, hleft⟩ := ihleft hsuffix hprevious
        (endsDigits_mark hrule (rightText ++ rest))
      have hopen : ¬ rule.symbol.EndsOperand := by simp [endsOperand_symbol hrule, hshape]
      obtain ⟨last, hlast, hright⟩ := ihright (suffix_of_cons hsuffix) hopen hrest
      exact ⟨last, hlast, hleft.between hrule (by simp [hshape]) hmiddle hright⟩
  | @fromRight rule _ _ rightText _ _ _ _ hshape _ _ ihleft ihright =>
      have hrule := mem_rules_of_suffix hsuffix
      obtain ⟨middle, hmiddle, hleft⟩ := ihleft (suffix_of_cons hsuffix) hprevious
        (endsDigits_mark hrule (rightText ++ rest))
      have hopen : ¬ rule.symbol.EndsOperand := by simp [endsOperand_symbol hrule, hshape]
      obtain ⟨last, hlast, hright⟩ := ihright hsuffix hopen hrest
      exact ⟨last, hlast, hleft.between hrule (by simp [hshape]) hmiddle hright⟩
  | @before rule _ text _ _ hshape _ ih =>
      have hrule := mem_rules_of_suffix hsuffix
      have hopen : ¬ rule.symbol.EndsOperand := by simp [endsOperand_symbol hrule, hshape]
      obtain ⟨last, hlast, hoperand⟩ := ih hsuffix hopen hrest
      have hmark := lexemes_mark hrule (fun _ => iff_of_false hprevious (by simp [hshape]))
        (text ++ rest)
      exact ⟨last, hlast, (Lexes.single hmark).append hoperand⟩
  | after hshape _ ih =>
      have hrule := mem_rules_of_suffix hsuffix
      obtain ⟨middle, hmiddle, hoperand⟩ := ih hsuffix hprevious (endsDigits_mark hrule rest)
      have hmark := lexemes_mark hrule (fun _ => iff_of_true hmiddle (by simp [hshape])) rest
      have hends := (endsOperand_symbol hrule).mpr hshape
      exact ⟨_, hends, by simpa using hoperand.append (Lexes.single hmark)⟩

inductive Symbol.Written : Symbol → List Char → Prop where
  | number {digits : List Char} (hdigits : IsNumeral digits) :
      Written (.number (digitsValue digits) (byteCount digits)) digits
  | mark {rule : Rule} (hrule : rule ∈ rules) : Written rule.symbol [rule.mark]
  | bracket (side : Side) : Written (parenthesis side) [bracketMark side]

inductive Spelled : List Symbol → List Char → Prop where
  | nil : Spelled [] []
  | cons {symbol : Symbol} {symbols : List Symbol} {text rest : List Char}
      (hsymbol : symbol.Written text) (hrest : Spelled symbols rest) :
      Spelled (symbol :: symbols) (text ++ rest)

/-- The symbol of a lexeme is written where it was read. -/
theorem written_of_lexemes {text : List Char} {lexeme : Lexeme}
    (h : Catalog.standard.lexemes previous text = [lexeme]) :
    ∃ front, text = front ++ lexeme.rest ∧ lexeme.symbol.Written front := by
  have member : lexeme ∈ Catalog.standard.lexemes previous text := h ▸ List.mem_singleton_self _
  rcases mem_lexemes.mp member with isOperator | isNumber | isBracket
  · obtain ⟨o, ho, hlexeme⟩ := List.exists_of_findSome?_eq_some isOperator
    obtain ⟨rule, hrule, rfl⟩ : ∃ rule ∈ rules, rule.operator = o := List.mem_map.mp ho
    obtain ⟨hspelling, hsize⟩ := spelling_of_mem_rules hrule
    obtain ⟨hsymbol, htext⟩ := Operator.eq_of_lexeme? hlexeme
    rw [hspelling] at hsymbol htext
    have hlength : byteCount [rule.mark] = 1 := by simp [hsize]
    rw [hlength] at hsymbol
    exact ⟨[rule.mark], htext, hsymbol ▸ .mark hrule⟩
  · obtain ⟨digits, hdigits, htext, hsymbol⟩ := exists_numeral_of_number? isNumber
    exact ⟨digits, htext, hsymbol ▸ .number hdigits⟩
  · obtain ⟨pair, hpair, hlexeme⟩ := List.exists_of_findSome?_eq_some isBracket
    obtain ⟨side, hsymbol, htext⟩ := BracketPair.eq_of_lexeme? hlexeme
    obtain rfl := List.mem_singleton.mp hpair
    have hwritten := Symbol.Written.bracket side
    refine ⟨[bracketMark side], ?_, ?_⟩
    · rw [htext]
      cases side <;> rfl
    · rw [hsymbol]
      cases side <;> exact hwritten

theorem spelled_of_lexes {last : Symbol} {text : List Char} {symbols : List Symbol}
    (h : Catalog.standard.Lexes previous text symbols last []) : Spelled symbols text := by
  generalize hend : ([] : List Char) = rest at h
  induction h with
  | nil => exact hend ▸ .nil
  | cons hlexeme _ ih =>
      obtain ⟨front, rfl, hwritten⟩ := written_of_lexemes hlexeme
      exact .cons hwritten (ih hend)

namespace Spelled

theorem exists_of_append {left right : List Symbol} {text : List Char}
    (h : Spelled (left ++ right) text) :
    ∃ first second, text = first ++ second ∧ Spelled left first ∧ Spelled right second := by
  induction left generalizing text with
  | nil => exact ⟨[], text, rfl, .nil, h⟩
  | cons symbol rest ih =>
      cases h with
      | cons hsymbol hrest =>
          obtain ⟨first, second, rfl, hleft, hright⟩ := ih hrest
          exact ⟨_, second, (List.append_assoc _ _ _).symm, .cons hsymbol hleft, hright⟩

theorem not_sentinel {symbols : List Symbol} {text : List Char} (h : Spelled symbols text) :
    .start ∉ symbols ∧ .finish ∉ symbols := by
  induction h with
  | nil => simp
  | cons hsymbol _ ih =>
      cases hsymbol with
      | number => simp [ih]
      | mark => simp [Rule.symbol, ih]
      | bracket => simp [parenthesis, ih]

end Spelled

end Calculator
