import Calculator.Proofs.Tiling
import Calculator.Proofs.Wording

/-!
The alphabet of the standard notation. A text is read if and only if all of its
characters belong to the alphabet, and then what is read can be told from the
characters alone: what comes before a minus sign in the text is what comes before
it among the symbols.
-/

namespace Calculator

open Catalog

def marks : List Char := ['+', '-', '*', '/', '^', '!', '(', ')']

def inAlphabet (c : Char) : Bool := c.isDigit || marks.contains c

def endsOperand (c : Char) : Bool := c.isDigit || [')', '!'].contains c

def markSymbol? (before : Option Char) : Char → Option Symbol
  | '+' => some (.operator .addition 1)
  | '-' =>
      if before.any endsOperand then some (.operator .subtraction 1)
      else some (.operator .negation 1)
  | '*' => some (.operator .multiplication 1)
  | '/' => some (.operator .division 1)
  | '^' => some (.operator .exponentiation 1)
  | '!' => some (.operator .factorial 1)
  | '(' => some (parenthesis .opening)
  | ')' => some (parenthesis .closing)
  | _ => none

/-- The symbols of the characters of a text, character by character. The first
digit of a run stands for the whole run, and the others add nothing. -/
def symbolsAfter (before : Option Char) : List Char → List Symbol
  | [] => []
  | c :: rest =>
      if c.isDigit then
        if before.any Char.isDigit then symbolsAfter (some c) rest
        else
          let digits := c :: rest.takeWhile Char.isDigit
          .number (digitsValue digits) (byteCount digits) :: symbolsAfter (some c) rest
      else (markSymbol? before c).toList ++ symbolsAfter (some c) rest

variable {previous : Symbol} {before : Option Char} {c : Char} {text rest : List Char}

/-- Behind a digit the rest of its run adds nothing. -/
theorem exists_symbolsAfter_dropWhile (hc : c.isDigit = true) (text : List Char) :
    ∃ digit, digit.isDigit = true ∧
      symbolsAfter (some c) text = symbolsAfter (some digit) (text.dropWhile Char.isDigit) := by
  induction text generalizing c with
  | nil => exact ⟨c, hc, rfl⟩
  | cons first text ih =>
      by_cases hfirst : first.isDigit = true
      · obtain ⟨digit, hdigit, hsame⟩ := ih hfirst
        refine ⟨digit, hdigit, ?_⟩
        rw [List.dropWhile_cons_of_pos hfirst, ← hsame, symbolsAfter, if_pos hfirst,
          if_pos (by simpa using hc)]
      · rw [List.dropWhile_cons_of_neg hfirst]
        exact ⟨c, hc, rfl⟩

/-- A character of the alphabet that is no digit is a bracket or the mark of a rule,
and the rule is the one that the character before it tells. -/
theorem exists_markSymbol (halphabet : inAlphabet c = true) (hc : c.isDigit = false)
    (before : Option Char) :
    (∃ side, c = bracketMark side ∧ markSymbol? before c = some (parenthesis side)) ∨
      ∃ rule ∈ rules, c = rule.mark ∧ markSymbol? before c = some rule.symbol ∧
        (rule.mark = '-' → (before.any endsOperand = true ↔ rule.shape ≠ .before)) := by
  have member : c ∈ marks := by simpa [inAlphabet, hc] using halphabet
  simp only [marks, List.mem_cons, List.not_mem_nil, or_false] at member
  obtain rfl | rfl | rfl | rfl | rfl | rfl | rfl | rfl := member
  · exact .inr ⟨⟨'+', .fromLeft, .addition⟩, by decide, rfl, rfl, fun h => absurd h (by decide)⟩
  · cases hends : before.any endsOperand with
    | true =>
        refine .inr ⟨⟨'-', .fromLeft, .subtraction⟩, by decide, rfl, ?_, by decide⟩
        simp [markSymbol?, hends, Rule.symbol]
    | false =>
        refine .inr ⟨⟨'-', .before, .negation⟩, by decide, rfl, ?_, by decide⟩
        simp [markSymbol?, hends, Rule.symbol]
  · exact .inr ⟨⟨'*', .fromLeft, .multiplication⟩, by decide, rfl, rfl,
      fun h => absurd h (by decide)⟩
  · exact .inr ⟨⟨'/', .fromLeft, .division⟩, by decide, rfl, rfl, fun h => absurd h (by decide)⟩
  · exact .inr ⟨⟨'^', .fromRight, .exponentiation⟩, by decide, rfl, rfl,
      fun h => absurd h (by decide)⟩
  · exact .inr ⟨⟨'!', .after, .factorial⟩, by decide, rfl, rfl, fun h => absurd h (by decide)⟩
  · exact .inl ⟨.opening, rfl, rfl⟩
  · exact .inl ⟨.closing, rfl, rfl⟩

/-- An operand ends with a mark exactly if it ends with the character of it. -/
theorem endsOperand_mark {rule : Rule} (h : rule ∈ rules) :
    rule.symbol.EndsOperand ↔ endsOperand rule.mark = true := by
  revert rule
  decide

theorem endsOperand_bracketMark (side : Side) :
    (parenthesis side).EndsOperand ↔ endsOperand (bracketMark side) = true := by
  cases side <;> decide

/-- One symbol is read from a character of the alphabet that is no digit. -/
theorem lexemes_of_inAlphabet (halphabet : inAlphabet c = true) (hc : c.isDigit = false)
    (hbefore : previous.EndsOperand ↔ before.any endsOperand = true) (rest : List Char) :
    ∃ symbol, markSymbol? before c = some symbol ∧
      Catalog.standard.lexemes previous (c :: rest) = [⟨symbol, rest⟩] ∧
      (symbol.EndsOperand ↔ endsOperand c = true) := by
  obtain ⟨side, rfl, hsymbol⟩ | ⟨rule, hrule, rfl, hsymbol, hminus⟩ :=
    exists_markSymbol halphabet hc before
  · exact ⟨_, hsymbol, lexemes_bracket side rest, endsOperand_bracketMark side⟩
  · have hprevious : rule.mark = '-' → (previous.EndsOperand ↔ rule.shape ≠ .before) :=
      fun hmark => hbefore.trans (hminus hmark)
    exact ⟨_, hsymbol, lexemes_mark hrule hprevious rest, endsOperand_mark hrule⟩

/-- Nothing is read from a character outside the alphabet. -/
theorem lexemes_eq_nil (hc : inAlphabet c = false) (rest : List Char) :
    Catalog.standard.lexemes previous (c :: rest) = [] := by
  obtain ⟨hdigit, hmarks⟩ : c.isDigit = false ∧ c ∉ marks := by simpa [inAlphabet] using hc
  have hother : ∀ other ∈ marks, c ≠ other := by
    rintro other member rfl
    exact hmarks member
  have hmark : ∀ rule ∈ rules, rule.mark ∈ marks := by decide
  rw [lexemes, findSome?_eq_none fun rule hrule => hother rule.mark (hmark rule hrule),
    number?_of_not_digit hdigit, bracket_eq_none (hother '(' (by decide)) (hother ')' (by decide))]
  rfl

theorem EndsDigits.append (h : EndsDigits text) (hrest : EndsDigits rest) :
    EndsDigits (text ++ rest) := by
  cases text with
  | nil => exact hrest
  | cons c text => exact h

/-- What holds of every text may be proved along its runs of digits: the rest of the
text comes before the character or the whole run in front of it. -/
theorem runs_induction {motive : List Char → Prop} (nil : motive [])
    (mark : ∀ (c : Char) (rest : List Char), c.isDigit = false → motive rest →
      motive (c :: rest))
    (run : ∀ (digits rest : List Char), IsNumeral digits → EndsDigits rest → motive rest →
      motive (digits ++ rest))
    (text : List Char) : motive text := by
  induction hsize : text.length using Nat.strongRecOn generalizing text with
  | _ size ih =>
    subst hsize
    cases text with
    | nil => exact nil
    | cons c text =>
        cases hc : c.isDigit with
        | false => exact mark c text hc (ih text.length (Nat.lt_succ_self _) text rfl)
        | true =>
            have hdigits : IsNumeral (c :: text.takeWhile Char.isDigit) := by
              refine ⟨List.cons_ne_nil _ _, List.forall_mem_cons.mpr ⟨hc, ?_⟩⟩
              exact fun other member => List.all_eq_true.mp List.all_takeWhile other member
            have hshorter := (List.dropWhile_suffix Char.isDigit (l := text)).length_le
            have hrest := ih _ (Nat.lt_succ_of_le hshorter) (text.dropWhile Char.isDigit) rfl
            have hwhole := run _ _ hdigits (endsDigits_dropWhile text) hrest
            rwa [List.cons_append, List.takeWhile_append_dropWhile] at hwhole

/-- The first digit of a run stands for the whole run, and what follows the run
follows one of its digits. -/
theorem exists_symbolsAfter_run {digits : List Char} (hdigits : IsNumeral digits)
    (hrest : EndsDigits rest) (hbefore : ¬ before.any Char.isDigit = true) :
    ∃ digit, digit.isDigit = true ∧ symbolsAfter before (digits ++ rest) =
      .number (digitsValue digits) (byteCount digits) :: symbolsAfter (some digit) rest := by
  obtain ⟨c, others, rfl⟩ := List.exists_cons_of_ne_nil hdigits.ne_nil
  obtain ⟨hc, hothers⟩ := List.forall_mem_cons.mp hdigits.isDigit
  obtain ⟨htake, hdrop⟩ := span_digits hothers hrest
  obtain ⟨digit, hdigit, hsame⟩ := exists_symbolsAfter_dropWhile hc (others ++ rest)
  rw [hdrop] at hsame
  refine ⟨digit, hdigit, ?_⟩
  rw [List.cons_append, symbolsAfter, if_pos hc, if_neg hbefore, htake, hsame]

/-- A text of the alphabet is read as the symbols of its characters. What is
read before it ends an operand if the character before it does, and no number
goes on in it. -/
theorem lexes_of_inAlphabet (halphabet : ∀ c ∈ text, inAlphabet c = true)
    (hbefore : previous.EndsOperand ↔ before.any endsOperand = true)
    (hstart : before.any Char.isDigit = true → EndsDigits text) (hrest : EndsDigits rest) :
    ∃ last, Catalog.standard.Lexes previous (text ++ rest) (symbolsAfter before text) last
      rest := by
  induction text using runs_induction generalizing previous before with
  | nil => exact ⟨previous, .nil previous rest⟩
  | mark c text hc ih =>
      obtain ⟨hfirst, hothers⟩ := List.forall_mem_cons.mp halphabet
      obtain ⟨symbol, hsymbol, hlexeme, hends⟩ :=
        lexemes_of_inAlphabet hfirst hc hbefore (text ++ rest)
      have hnumber : (some c).any Char.isDigit = true → EndsDigits text := by simp [hc]
      obtain ⟨last, hlexes⟩ := ih hothers (by simpa using hends) hnumber
      rw [symbolsAfter, if_neg (by simp [hc]), hsymbol]
      exact ⟨last, (Lexes.single hlexeme).append hlexes⟩
  | run digits text hdigits htext ih =>
      have hfresh : ¬ before.any Char.isDigit = true := fun hrun =>
        hdigits.not_endsDigits (hstart hrun)
      obtain ⟨digit, hdigit, hsymbols⟩ := exists_symbolsAfter_run hdigits htext hfresh
      have hnumber : (Symbol.number (digitsValue digits) (byteCount digits)).EndsOperand := rfl
      have hlast : (some digit).any endsOperand = true := by simp [endsOperand, hdigit]
      obtain ⟨last, hlexes⟩ := ih (List.forall_mem_append.mp halphabet).2
        (iff_of_true hnumber hlast) fun _ => htext
      rw [hsymbols, List.append_assoc]
      exact ⟨last, .cons (lexemes_numeral hdigits (htext.append hrest)) hlexes⟩

/-- A text is in the alphabet, or there is a first character that is not. -/
theorem exists_first_outside (text : List Char) :
    (∀ c ∈ text, inAlphabet c = true) ∨
      ∃ front c rest, text = front ++ c :: rest ∧ (∀ other ∈ front, inAlphabet other = true) ∧
        inAlphabet c = false := by
  induction text with
  | nil => exact .inl (by simp)
  | cons first text ih =>
      cases hfirst : inAlphabet first with
      | false => exact .inr ⟨[], first, text, rfl, by simp, hfirst⟩
      | true =>
          obtain hall | ⟨front, c, rest, rfl, hfront, hc⟩ := ih
          · exact .inl (by simpa [hfirst] using hall)
          · exact .inr ⟨first :: front, c, rest, rfl, by simpa [hfirst] using hfront, hc⟩

theorem result_tokenize_of_inAlphabet {source : String}
    (h : ∀ c ∈ source.toList, inAlphabet c = true) :
    (Catalog.standard.tokenize source).result =
      .ok (.start :: symbolsAfter none source.toList ++ [.finish]) := by
  have hstart : ¬ Symbol.start.EndsOperand := by decide
  obtain ⟨last, hlexes⟩ := @lexes_of_inAlphabet .start none source.toList [] h
    (iff_of_false hstart (by simp)) (by simp) (by simp [EndsDigits])
  rw [List.append_nil] at hlexes
  exact result_tokenize_eq_ok_iff.mpr ⟨_, last, hlexes, rfl⟩

theorem endsDigits_of_not_inAlphabet (hc : inAlphabet c = false) (rest : List Char) :
    EndsDigits (c :: rest) := by
  intro other hother
  cases hother
  exact (Bool.or_eq_false_iff.mp hc).1

theorem result_tokenize_of_outside {source : String} {front : List Char}
    (htext : source.toList = front ++ c :: rest)
    (hfront : ∀ other ∈ front, inAlphabet other = true) (hc : inAlphabet c = false) :
    (Catalog.standard.tokenize source).result =
      .error (.unexpected (byteCount front) (String.ofList (c :: rest))) := by
  have hstart : ¬ Symbol.start.EndsOperand := by decide
  obtain ⟨last, hlexes⟩ := @lexes_of_inAlphabet .start none front (c :: rest) hfront
    (iff_of_false hstart (by simp)) (by simp) (endsDigits_of_not_inAlphabet hc rest)
  have hcount : byteLength (symbolsAfter none front) = byteCount front := by
    obtain ⟨read, hread, hlength⟩ := hlexes.exists_front
    rw [← hlength, List.append_cancel_right hread]
  have hnone : Catalog.standard.lexemes last (c :: rest) = [] := lexemes_eq_nil hc rest
  rw [← htext] at hlexes
  obtain ⟨event, error, hend, hresult⟩ :=
    result_tokenize_of_lexes hlexes (List.cons_ne_nil c rest) (by simp [hnone])
  rw [hnone] at hend
  cases hend
  rw [hresult, hcount]

/-- The standard notation reads exactly the texts of its alphabet, and it reads
them as the symbols of their characters. In any other text it stops before the
first character that is not in the alphabet, where nothing can be read. -/
theorem tokenize_standard (source : String) :
    ((∃ all, (Catalog.standard.tokenize source).result = .ok all) ↔
      ∀ c ∈ source.toList, inAlphabet c = true) ∧
    ((∀ c ∈ source.toList, inAlphabet c = true) →
      (Catalog.standard.tokenize source).result =
        .ok (.start :: symbolsAfter none source.toList ++ [.finish])) ∧
    ((∃ c ∈ source.toList, inAlphabet c = false) →
      ∃ front c rest, source.toList = front ++ c :: rest ∧
        (∀ other ∈ front, inAlphabet other = true) ∧ inAlphabet c = false ∧
        (Catalog.standard.tokenize source).result =
          .error (.unexpected (byteCount front) (String.ofList (c :: rest)))) := by
  obtain hall | ⟨front, c, rest, htext, hfront, hc⟩ := exists_first_outside source.toList
  · have hresult := result_tokenize_of_inAlphabet hall
    refine ⟨iff_of_true ⟨_, hresult⟩ hall, fun _ => hresult, ?_⟩
    rintro ⟨c, member, hc⟩
    rw [hall c member] at hc
    contradiction
  · have hresult := result_tokenize_of_outside htext hfront hc
    have hnot : ¬ ∀ other ∈ source.toList, inAlphabet other = true := by
      intro hall
      have member : c ∈ source.toList := by simp [htext]
      rw [hall c member] at hc
      contradiction
    refine ⟨iff_of_false ?_ hnot, fun hall => absurd hall hnot,
      fun _ => ⟨front, c, rest, htext, hfront, hc, hresult⟩⟩
    rintro ⟨all, hok⟩
    rw [hresult] at hok
    contradiction

end Calculator
