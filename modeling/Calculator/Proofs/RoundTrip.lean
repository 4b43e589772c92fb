import Calculator.Proofs.Concatenation
import Calculator.Proofs.Measure
import Calculator.Proofs.Numerals

/-!
Writing what was read. The symbols of a text of the standard notation are
written as that text without its superfluous leading zeros. Reading this again
gives the same symbols, except that some numbers are shorter, and so it has the
same value or the same error.
-/

namespace Calculator

open Catalog

def digitRuns (text : List Char) : List (List Char) :=
  (text.splitOnP fun c => !c.isDigit).filter (· ≠ [])

variable {before : Option Char} {c : Char} {digits text rest : List Char}

theorem digitRuns_cons (hc : c.isDigit = false) (rest : List Char) :
    digitRuns (c :: rest) = digitRuns rest := by
  rw [digitRuns, List.splitOnP_cons_eq_if_modifyHead, if_pos (by simp [hc]),
    List.filter_cons_of_neg (by simp), digitRuns]

theorem digitRuns_append (hdigits : IsNumeral digits) (hrest : EndsDigits rest) :
    digitRuns (digits ++ rest) = digits :: digitRuns rest := by
  have hno : ∀ c ∈ digits, (!c.isDigit) = false := fun c member => by
    simp [hdigits.isDigit c member]
  have hkept (others : List (List Char)) :
      (digits :: others).filter (· ≠ []) = digits :: others.filter (· ≠ []) :=
    List.filter_cons_of_pos (by simpa using hdigits.ne_nil)
  cases rest with
  | nil =>
      rw [List.append_nil, digitRuns, List.splitOnP_eq_singleton hno, hkept]
      rfl
  | cons c rest =>
      have hc : c.isDigit = false := hrest c rfl
      rw [digitRuns, List.splitOnP_append_cons_of_forall_mem hno c (by simp [hc]), hkept,
        digitRuns_cons hc, digitRuns]

theorem EndsDigits.not_goesOn (h : EndsDigits text) : ¬ GoesOn before text := by
  rintro ⟨-, hstart⟩
  rw [h.startsWithDigit_eq_false] at hstart
  contradiction

theorem not_goesOn_of_not_isDigit (hc : c.isDigit = false) : ¬ GoesOn (some c) text := by
  rintro ⟨hdigit, -⟩
  exact absurd (hc.symm.trans hdigit) Bool.false_ne_true

/-- A character of the alphabet that is no digit is what its symbol is written as. -/
theorem exists_text_markSymbol (halphabet : inAlphabet c = true) (hc : c.isDigit = false)
    (before : Option Char) :
    ∃ symbol, markSymbol? before c = some symbol ∧ symbol.text.toList = [c] := by
  obtain ⟨side, rfl, hsymbol⟩ | ⟨rule, hrule, rfl, hsymbol, -⟩ :=
    exists_markSymbol halphabet hc before
  · refine ⟨_, hsymbol, ?_⟩
    cases side <;> rfl
  · exact ⟨_, hsymbol, (spelling_of_mem_rules hrule).1⟩

theorem text_number (hexact : numeralValue digits < 2 ^ 53) (length : Nat) :
    (Symbol.number (digitsValue digits) length).text.toList =
      Nat.toDigits 10 (numeralValue digits) := by
  rw [Symbol.text, digitsValue_eq_ofNat, write_ofNat hexact, String.toList_ofList]

/-- The symbols of a text are written as the text without superfluous zeros. -/
theorem spell_symbolsAfter (halphabet : ∀ c ∈ text, inAlphabet c = true)
    (hexact : ∀ digits ∈ digitRuns text, numeralValue digits < 2 ^ 53)
    (hbefore : ¬ GoesOn before text) :
    (spell (symbolsAfter before text)).toList = trimZeros false text := by
  induction text using runs_induction generalizing before with
  | nil => rfl
  | mark c text hc ih =>
      obtain ⟨hfirst, hothers⟩ := List.forall_mem_cons.mp halphabet
      obtain ⟨symbol, hsymbol, htext⟩ := exists_text_markSymbol hfirst hc before
      rw [digitRuns_cons hc] at hexact
      rw [symbolsAfter, if_neg (by simp [hc]), hsymbol, Option.toList_some,
        List.singleton_append, spell_cons, String.toList_append, htext,
        ih hothers hexact (not_goesOn_of_not_isDigit hc), trimZeros_of_not_isDigit hc]
      rfl
  | run digits text hdigits htext ih =>
      rw [digitRuns_append hdigits htext] at hexact
      obtain ⟨hvalue, hothers⟩ := List.forall_mem_cons.mp hexact
      have hfresh : ¬ before.any Char.isDigit = true := fun hdigit =>
        hbefore ⟨hdigit, hdigits.startsWithDigit_append text⟩
      obtain ⟨digit, -, hsymbols⟩ := exists_symbolsAfter_run hdigits htext hfresh
      rw [hsymbols, spell_cons, String.toList_append, text_number hvalue,
        trimZeros_append hdigits htext,
        ih (List.forall_mem_append.mp halphabet).2 hothers htext.not_goesOn]

theorem markSymbol?_congr {other : Option Char}
    (hsame : other.any endsOperand = before.any endsOperand) (c : Char) :
    markSymbol? other c = markSymbol? before c := by
  simp only [markSymbol?, hsame]

/-- The text without superfluous zeros is read as the same symbols, up to the
lengths of their numbers. -/
theorem symbolsAfter_trimZeros {other : Option Char}
    (hsame : other.any endsOperand = before.any endsOperand)
    (hbefore : ¬ GoesOn before text) (hother : ¬ GoesOn other text) :
    (symbolsAfter other (trimZeros false text)).map Symbol.unmeasured =
      (symbolsAfter before text).map Symbol.unmeasured := by
  -- What stands before the two texts may differ: the digits that end a run and its
  -- notation are not compared, it is enough that both end an operand.
  induction text using runs_induction generalizing before other with
  | nil => rfl
  | mark c text hc ih =>
      have hrest := @ih (some c) (some c) rfl (not_goesOn_of_not_isDigit hc)
        (not_goesOn_of_not_isDigit hc)
      rw [trimZeros_of_not_isDigit hc, symbolsAfter, symbolsAfter, if_neg (by simp [hc]),
        if_neg (by simp [hc]), markSymbol?_congr hsame, List.map_append, List.map_append, hrest]
  | run digits text hdigits htext ih =>
      have hstart := hdigits.startsWithDigit_append text
      obtain ⟨digit, hdigit, hsymbols⟩ :=
        exists_symbolsAfter_run hdigits htext fun hrun => hbefore ⟨hrun, hstart⟩
      obtain ⟨digit', hdigit', hsymbols'⟩ :=
        exists_symbolsAfter_run (isNumeral_toDigits (numeralValue digits))
          (endsDigits_trimZeros htext) fun hrun => hother ⟨hrun, hstart⟩
      have hends : (some digit').any endsOperand = (some digit).any endsOperand := by
        simp [endsOperand, hdigit, hdigit']
      have hvalue : digitsValue (Nat.toDigits 10 (numeralValue digits)) = digitsValue digits := by
        rw [digitsValue_eq_ofNat, numeralValue_toDigits, digitsValue_eq_ofNat]
      rw [trimZeros_append hdigits htext, hsymbols', hsymbols, List.map_cons, List.map_cons,
        ih hends htext.not_goesOn htext.not_goesOn, hvalue]
      rfl

theorem isBlank_of_inAlphabet (h : inAlphabet c = true) : isBlank c = false := by
  have hmarks : ∀ mark ∈ marks, isBlank mark = false := by
    simp only [marks, List.forall_mem_cons, List.not_mem_nil, false_imp_iff, implies_true]
    decide
  rcases Bool.or_eq_true_iff.mp h with hdigit | hmark
  · exact isBlank_of_isDigit hdigit
  · exact hmarks c (List.contains_iff_mem.mp hmark)

theorem result_calculate_of_inAlphabet {source : String}
    (h : ∀ c ∈ source.toList, inAlphabet c = true) :
    (calculate source).result = (Catalog.standard.evaluate
      (.start :: symbolsAfter none source.toList ++ [.finish])).result.mapError .evaluation := by
  have hsame := withoutBlanks_eq_self fun c member => isBlank_of_inAlphabet (h c member)
  apply result_calculate_of_tokenize
  rw [hsame]
  exact result_tokenize_of_inAlphabet h

/-- Symbols that are the same up to the lengths of their numbers stay so between
sentinels. -/
theorem sentinels_map_unmeasured {others symbols : List Symbol}
    (h : others.map Symbol.unmeasured = symbols.map Symbol.unmeasured) :
    (.start :: others ++ [.finish] : List Symbol).map Symbol.unmeasured =
      (.start :: symbols ++ [.finish] : List Symbol).map Symbol.unmeasured := by
  simp only [List.cons_append, List.map_cons, List.map_append, h]

/-- A text of the alphabet whose numbers are exact can be read, and its symbols are
written as the text without superfluous leading zeros. What was written is read as
the same symbols, up to the lengths of their numbers, and it has the same value or
the same error. -/
theorem spell_inverts_tokenize (source : String)
    (halphabet : ∀ c ∈ source.toList, inAlphabet c = true)
    (hexact : ∀ digits ∈ digitRuns source.toList, numeralValue digits < 2 ^ 53) :
    ∃ all again, (Catalog.standard.tokenize source).result = .ok all ∧
      spell (dropSentinels all) = withoutLeadingZeros source ∧
      (Catalog.standard.tokenize (withoutLeadingZeros source)).result = .ok again ∧
      again.map Symbol.unmeasured = all.map Symbol.unmeasured ∧
      (calculate (withoutLeadingZeros source)).result = (calculate source).result := by
  have hagain : ∀ c ∈ (withoutLeadingZeros source).toList, inAlphabet c = true := by
    rw [toList_withoutLeadingZeros]
    exact fun c member => halphabet c ((trimZeros_sublist false source.toList).subset member)
  have hfresh : ¬ GoesOn none source.toList := fun h => absurd h.1 Bool.false_ne_true
  have hsame := sentinels_map_unmeasured (symbolsAfter_trimZeros rfl hfresh hfresh)
  rw [← toList_withoutLeadingZeros] at hsame
  refine ⟨_, _, result_tokenize_of_inAlphabet halphabet, ?_, result_tokenize_of_inAlphabet hagain,
    hsame, ?_⟩
  · rw [dropSentinels_sentinels, ← String.toList_inj, toList_withoutLeadingZeros]
    exact spell_symbolsAfter halphabet hexact hfresh
  · rw [result_calculate_of_inAlphabet hagain, result_calculate_of_inAlphabet halphabet,
      result_evaluate_congr hsame]

/-- The zeros in front of `7` and `10` are lost, the one behind `1` is not. -/
theorem spell_inverts_tokenize_padded :
    (∀ c ∈ "007-(010)!".toList, inAlphabet c = true) ∧
      digitRuns "007-(010)!".toList = [['0', '0', '7'], ['0', '1', '0']] ∧
      (∀ digits ∈ digitRuns "007-(010)!".toList, numeralValue digits < 2 ^ 53) ∧
      (∃ all, (Catalog.standard.tokenize "007-(010)!").result = .ok all ∧
        spell (dropSentinels all) = "7-(10)!") ∧
      (calculate "7-(10)!").result = (calculate "007-(010)!").result := by
  have halphabet : ∀ c ∈ "007-(010)!".toList, inAlphabet c = true := List.all_eq_true.mp rfl
  have hruns : digitRuns "007-(010)!".toList = [['0', '0', '7'], ['0', '1', '0']] := by decide
  have hexact : ∀ digits ∈ digitRuns "007-(010)!".toList, numeralValue digits < 2 ^ 53 := by
    rw [hruns]
    decide
  have htrim : withoutLeadingZeros "007-(010)!" = "7-(10)!" := by decide
  obtain ⟨all, again, hread, hspell, -, -, hresult⟩ :=
    spell_inverts_tokenize "007-(010)!" halphabet hexact
  rw [htrim] at hspell hresult
  exact ⟨halphabet, hruns, hexact, ⟨all, hread, hspell⟩, hresult⟩

end Calculator
