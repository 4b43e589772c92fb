import Calculator.Calculation
import Calculator.Proofs.Descent
import Calculator.Proofs.Meaning
import Calculator.Proofs.Sentence
import Calculator.Proofs.Wording

/-!
A calculation and a recursive descent over the text without its white space come
to the same result. A phrase is read as its symbols and evaluated to its value;
conversely the cuts of any evaluation that succeeds put together a phrase.
-/

namespace Calculator

open Piece Catalog

def rulesFrom (loosest : Nat) : List Rule :=
  rules.filter fun rule => loosest ≤ rule.operator.precedence

theorem rulesFrom_zero : rulesFrom 0 = rules := rfl

/-- Among rules in the order of precedence those from one on stand at the end. -/
theorem filter_suffix (loosest : Nat) {current : List Rule}
    (h : current.Pairwise fun looser tighter =>
      looser.operator.precedence ≤ tighter.operator.precedence) :
    (current.filter fun rule => loosest ≤ rule.operator.precedence) <:+ current := by
  induction current with
  | nil => exact List.suffix_refl []
  | cons rule rest ih =>
      obtain ⟨hrule, hrest⟩ := List.pairwise_cons.mp h
      by_cases hle : loosest ≤ rule.operator.precedence
      · have hall : ∀ other ∈ rule :: rest, loosest ≤ other.operator.precedence := by
          intro other member
          rcases List.mem_cons.mp member with rfl | later
          · exact hle
          · exact Nat.le_trans hle (hrule other later)
        have hself := List.filter_eq_self.mpr fun other member => decide_eq_true (hall other member)
        exact ⟨[], (List.nil_append _).trans hself⟩
      · rw [List.filter_cons_of_neg (by simpa using hle)]
        exact (ih hrest).trans (List.suffix_cons rule rest)

theorem rulesFrom_suffix (loosest : Nat) : rulesFrom loosest <:+ rules :=
  filter_suffix loosest (pairwise_rules.imp And.left)

/-- Between two rules of one precedence, the first one stands between its operands. -/
theorem pairwise_between :
    rules.Pairwise fun looser tighter =>
      looser.operator.precedence = tighter.operator.precedence →
        looser.operator.placement = .between := by
  decide

/-- Without the operators of the looser rules a phrase is one of the tighter rules. -/
theorem Phrase.tighten_append {looser current : List Rule} {text : List Char}
    {symbols : List Symbol} {value : Except EvalError Float}
    (h : Phrase (looser ++ current) text symbols value)
    (habsent : ∀ rule ∈ looser, ¬ rule.operator.OccursIn (pieces symbols)) :
    Phrase current text symbols value := by
  induction looser with
  | nil => exact h
  | cons rule rest ih =>
      exact ih (h.tighten (habsent rule List.mem_cons_self)) fun other member =>
        habsent other (List.mem_cons_of_mem rule member)

/-- The rule of a cut. Whatever is beside the cut and is a phrase of the rules of
that precedence is a phrase of the rule and the tighter ones. -/
theorem exists_rule_of_cut? {loosest : Nat} {slice : List Symbol} {cut : Cut}
    (h : Catalog.standard.cut? loosest slice = some (.ok cut)) :
    ∃ rule tighter, rule.operator = cut.operator ∧ rule :: tighter <:+ rulesFrom loosest ∧
      ∀ {text : List Char} {symbols : List Symbol} {value : Except EvalError Float},
        (∀ o : Operator, o.OccursIn (pieces symbols) → o.OccursIn (pieces slice)) →
        Phrase (rulesFrom rule.operator.precedence) text symbols value →
          Phrase (rule :: tighter) text symbols value := by
  obtain ⟨-, hle, -, ⟨earlier, later, hladder, hearlier⟩, -⟩ := exists_splits_of_cut? h
  rw [ladder_standard] at hladder
  obtain ⟨looser, remaining, hfrom, rfl, hremaining⟩ := List.map_eq_append_iff.mp hladder
  obtain ⟨rule, tighter, rfl, hoperator, -⟩ := List.map_eq_cons_iff.mp hremaining
  rw [← hoperator] at hle
  have hsublist : (looser ++ rule :: tighter).Sublist rules := hfrom ▸ List.filter_sublist
  have horder := List.pairwise_append.mp (pairwise_rules.sublist hsublist)
  have hplace := List.pairwise_append.mp (pairwise_between.sublist hsublist)
  have htighter : (rule :: tighter).filter
      (fun other => rule.operator.precedence ≤ other.operator.precedence) = rule :: tighter := by
    rw [List.filter_eq_self]
    intro other member
    rcases List.mem_cons.mp member with rfl | later
    · simp
    · exact decide_eq_true ((List.pairwise_cons.mp horder.2.1).1 other later).1
  have hrules : rulesFrom rule.operator.precedence = (looser.filter
      fun other => rule.operator.precedence ≤ other.operator.precedence) ++ rule :: tighter := by
    rw [← htighter, ← List.filter_append, ← hfrom, List.filter_filter]
    apply List.filter_congr
    intro other _
    by_cases hother : rule.operator.precedence ≤ other.operator.precedence
    · simp [hother, Nat.le_trans hle hother]
    · simp [hother]
  refine ⟨rule, tighter, hoperator, ⟨looser, hfrom.symm⟩, ?_⟩
  intro text symbols value hwithin hphrase
  rw [hrules] at hphrase
  apply hphrase.tighten_append
  intro other member hoccurs
  obtain ⟨hlooser, htight⟩ := List.mem_filter.mp member
  have hsame : other.operator.precedence = rule.operator.precedence :=
    Nat.le_antisymm (horder.2.2 other hlooser rule List.mem_cons_self).1 (of_decide_eq_true htight)
  have hbetween := hplace.2.2 other hlooser rule List.mem_cons_self hsame
  exact Operator.cut?_ne_none_of_between hbetween (hwithin other.operator hoccurs)
    (hearlier other.operator (List.mem_map_of_mem hlooser))

/-- A symbol with the operation of a rule is written as the mark of the rule. -/
theorem Symbol.Written.eq_of_operation {rule : Rule} {entry : Operator} {length : Nat}
    {text : List Char} (h : (Symbol.operator entry length).Written text) (hrule : rule ∈ rules)
    (hoperation : entry.operation = rule.operator.operation) :
    .operator entry length = rule.symbol ∧ text = [rule.mark] := by
  have hunique : ∀ first ∈ rules, ∀ second ∈ rules,
      first.operator.operation = second.operator.operation → first = second := by
    decide
  generalize hsymbol : Symbol.operator entry length = symbol at h
  cases h with
  | number => cases hsymbol
  | @mark found hfound =>
      cases hsymbol
      obtain rfl := hunique found hfound rule hrule hoperation
      exact ⟨rfl, rfl⟩
  | bracket => cases hsymbol

theorem Symbol.Written.eq_of_bracket {pair : BracketPair} {side : Side} {length : Nat}
    {text : List Char} (h : (Symbol.bracket pair side length).Written text) :
    .bracket pair side length = parenthesis side ∧ text = [bracketMark side] := by
  generalize hsymbol : Symbol.bracket pair side length = symbol at h
  cases h with
  | number => cases hsymbol
  | mark => cases hsymbol
  | bracket found =>
      cases hsymbol
      exact ⟨rfl, rfl⟩

/-- The texts of the two sides of a cut, and the rule it is taken at. -/
theorem exists_texts_of_cut? {loosest : Nat} {slice : List Symbol} {cut : Cut} {text : List Char}
    (h : Catalog.standard.cut? loosest slice = some (.ok cut)) (hspelled : Spelled slice text) :
    ∃ rule tighter leftText rightText, rule.operator = cut.operator ∧
      rule :: tighter <:+ rulesFrom loosest ∧
      slice = cut.left ++ rule.symbol :: cut.right ∧ text = leftText ++ rule.mark :: rightText ∧
      Spelled cut.left leftText ∧ Spelled cut.right rightText ∧
      rule.operator.Accepts (pieces cut.left) (pieces cut.right) ∧
      (∀ value, Phrase (rulesFrom rule.operator.precedence) leftText cut.left value →
        Phrase (rule :: tighter) leftText cut.left value) ∧
      ∀ value, Phrase (rulesFrom rule.operator.precedence) rightText cut.right value →
        Phrase (rule :: tighter) rightText cut.right value := by
  obtain ⟨rule, tighter, hoperator, hsuffix, hphrases⟩ := exists_rule_of_cut? h
  obtain ⟨-, -, -, -, before, after, hsplits, haccepts, hleft, hright⟩ := exists_splits_of_cut? h
  obtain ⟨hbefore, hafter⟩ := hsplits.pieces_join
  obtain ⟨length, hslice⟩ := hsplits.slice_eq
  have hrule : rule ∈ rules := mem_rules_of_suffix (hsuffix.trans (rulesFrom_suffix loosest))
  have hwithin (o : Operator) :
      o.OccursIn (pieces slice) ↔ o.OccursIn before ∨ cut.pivot.operation = o.operation ∨
        o.OccursIn after := by
    obtain ⟨_, hparts⟩ := hsplits.parts_eq
    rw [hparts, Operator.occursIn_operator]
  rw [hslice] at hspelled
  obtain ⟨leftText, others, rfl, hleftText, hothers⟩ := hspelled.exists_of_append
  cases hothers with
  | cons hsymbol hrightText =>
      have hoperation := hsplits.operation_eq
      rw [← hoperator] at hoperation haccepts
      obtain ⟨hpivot, rfl⟩ := hsymbol.eq_of_operation hrule hoperation
      rw [hpivot] at hslice
      rw [← hleft] at hslice hleftText hbefore
      rw [← hright] at hslice hrightText hafter
      rw [hbefore, hafter]
      refine ⟨rule, tighter, leftText, _, hoperator, hsuffix, hslice, rfl, hleftText, hrightText,
        haccepts, ?_, ?_⟩
      · intro value
        exact hphrases fun o hoccurs => (hwithin o).mpr (Or.inl (hbefore ▸ hoccurs))
      · intro value
        exact hphrases fun o hoccurs => (hwithin o).mpr (Or.inr (Or.inr (hafter ▸ hoccurs)))

theorem Catalog.Evaluates.exists_phrase {loosest : Nat} {symbols : List Symbol} {result : Float}
    (h : Catalog.standard.Evaluates loosest symbols result) {text : List Char}
    (hspelled : Spelled symbols text) :
    ∃ value, Phrase (rulesFrom loosest) text symbols value := by
  have hbare : ∀ {symbols : List Symbol} {text : List Char}, Spelled symbols text →
      dropSentinels symbols = symbols := fun hspelled =>
    dropSentinels_of_not_mem hspelled.not_sentinel.1 hspelled.not_sentinel.2
  induction h generalizing text with
  | number hsingle =>
      rw [hbare hspelled] at hsingle
      subst hsingle
      cases hspelled with
      | cons hsymbol hrest =>
          cases hrest
          cases hsymbol with
          | number hdigits =>
              rw [List.append_nil]
              exact ⟨_, (Phrase.number hdigits).of_suffix List.nil_suffix⟩
  | group hgroup _ ih =>
      rw [hbare hspelled] at hgroup
      obtain ⟨pair, firstLength, pair', lastLength, rfl, rfl, -, rfl⟩ :=
        eq_of_pieces_eq_group hgroup
      cases hspelled with
      | cons hfirst hrest =>
          obtain ⟨inside, closing, rfl, hinside, hclosing⟩ := hrest.exists_of_append
          obtain ⟨value, hphrase⟩ := ih hinside
          cases hclosing with
          | cons hlast hnil =>
              cases hnil
              obtain ⟨hopening, rfl⟩ := hfirst.eq_of_bracket
              obtain ⟨hclosing, rfl⟩ := hlast.eq_of_bracket
              rw [hopening, hclosing]
              exact ⟨value, (Phrase.group hphrase).of_suffix List.nil_suffix⟩
  | before _ hcut hplacement _ _ ih =>
      rw [hbare hspelled] at hcut
      obtain ⟨rule, tighter, leftText, rightText, hoperator, hsuffix, hslice, rfl, hleftText,
        hrightText, -, -, hphrases⟩ := exists_texts_of_cut? hcut hspelled
      have hrule := mem_rules_of_suffix (hsuffix.trans (rulesFrom_suffix _))
      rw [← hoperator] at hplacement ih
      have hshape := Shape.placement_eq_before_iff.mp
        ((operator_of_mem_rules hrule).2.1.symm.trans hplacement)
      obtain ⟨value, hoperand⟩ := ih hrightText
      have hphrase := Phrase.before hshape (hphrases value hoperand)
      have hnil := (slice_eq_of_cut? hcut).2.2.1 (hoperator ▸ hplacement)
      rw [hnil] at hslice hleftText
      cases hleftText
      rw [hslice]
      exact ⟨_, hphrase.of_suffix hsuffix⟩
  | after _ hcut hplacement _ _ ih =>
      rw [hbare hspelled] at hcut
      obtain ⟨rule, tighter, leftText, rightText, hoperator, hsuffix, hslice, rfl, hleftText,
        hrightText, -, hphrases, -⟩ := exists_texts_of_cut? hcut hspelled
      have hrule := mem_rules_of_suffix (hsuffix.trans (rulesFrom_suffix _))
      rw [← hoperator] at hplacement ih
      have hshape := Shape.placement_eq_after_iff.mp
        ((operator_of_mem_rules hrule).2.1.symm.trans hplacement)
      obtain ⟨value, hoperand⟩ := ih hleftText
      have hphrase := Phrase.after hshape (hphrases value hoperand)
      have hnil := (slice_eq_of_cut? hcut).2.2.2 (hoperator ▸ hplacement)
      rw [hnil] at hslice hrightText
      cases hrightText
      rw [hslice]
      exact ⟨_, hphrase.of_suffix hsuffix⟩
  | between _ hcut hplacement _ _ _ ihleft ihright =>
      rw [hbare hspelled] at hcut
      obtain ⟨rule, tighter, leftText, rightText, hoperator, hsuffix, hslice, rfl, hleftText,
        hrightText, haccepts, hleftPhrases, hrightPhrases⟩ := exists_texts_of_cut? hcut hspelled
      have hrule := mem_rules_of_suffix (hsuffix.trans (rulesFrom_suffix _))
      rw [← hoperator] at hplacement ihleft ihright
      obtain ⟨-, hagrees, hgroups⟩ := operator_of_mem_rules hrule
      obtain ⟨first, hfirst⟩ := ihleft hleftText
      obtain ⟨second, hsecond⟩ := ihright hrightText
      have hleft := hleftPhrases first hfirst
      have hright := hrightPhrases second hsecond
      simp only [Operator.Accepts, hplacement, Operator.MeetsFirst, hgroups] at haccepts
      rw [hslice]
      rcases Shape.placement_eq_between_iff.mp (hagrees.symm.trans hplacement) with
        hshape | hshape
      · simp only [hshape, decide_true, ↓reduceIte] at haccepts
        exact ⟨_, (Phrase.fromLeft hshape hleft (hright.tighten haccepts)).of_suffix hsuffix⟩
      · simp only [hshape, reduceCtorEq, decide_false, Bool.false_eq_true, ↓reduceIte] at haccepts
        exact ⟨_, (Phrase.fromRight hshape (hleft.tighten haccepts) hright).of_suffix hsuffix⟩

theorem result_calculate_of_tokenize {source : String} {all : List Symbol}
    (h : (Catalog.standard.tokenize (withoutBlanks source)).result = .ok all) :
    (calculate source).result =
      (Catalog.standard.evaluate all).result.mapError .evaluation := by
  unfold calculate symbolsOf
  rw [Traced.result_bind, Traced.result_mapError, h]
  exact Traced.result_mapError _ _

theorem result_calculate_of_lexes {source : String} {symbols : List Symbol} {last : Symbol}
    (h : Catalog.standard.Lexes .start (withoutBlanks source).toList symbols last []) :
    (calculate source).result =
      (Catalog.standard.evaluateFrom 0 symbols).result.mapError .evaluation := by
  have hread := result_tokenize_eq_ok_iff.mpr ⟨symbols, last, h, rfl⟩
  obtain ⟨hstart, hfinish⟩ := (spelled_of_lexes h).not_sentinel
  rw [result_calculate_of_tokenize hread, result_evaluate, result_of_sentinels hstart hfinish]

theorem exists_lexes_of_calculate {source : String} {value : Float}
    (h : (calculate source).result = .ok value) :
    ∃ symbols last,
      Catalog.standard.Lexes .start (withoutBlanks source).toList symbols last [] := by
  unfold calculate symbolsOf at h
  rw [Traced.result_bind, Traced.result_mapError, result_tokenize] at h
  obtain ⟨all, hall, -⟩ := exists_of_bind_eq_ok h
  cases hlexFrom : (Catalog.standard.lexFrom .start 0 (withoutBlanks source).toList).result with
  | error error =>
      rw [hlexFrom] at hall
      contradiction
  | ok symbols =>
      obtain ⟨last, hlexes⟩ := result_lexFrom_eq_ok_iff.mp hlexFrom
      exact ⟨symbols, last, hlexes⟩

theorem Phrase.result_calculate {source : String} {symbols : List Symbol}
    {value : Except EvalError Float}
    (h : Phrase rules (withoutBlanks source).toList symbols value) :
    (calculate source).result = value.mapError .evaluation := by
  have hopen : ¬ Symbol.start.EndsOperand := by decide
  have hend : EndsDigits [] := by simp [EndsDigits]
  obtain ⟨last, -, hlexes⟩ := h.lexes (List.suffix_refl rules) hopen hend
  rw [List.append_nil] at hlexes
  rw [result_calculate_of_lexes hlexes,
    h.result_evaluateFrom (List.suffix_refl rules) fun _ _ => Nat.zero_le _]

theorem isBlank_of_isDigit {c : Char} (h : c.isDigit = true) : isBlank c = false := by
  simp only [Char.isDigit, Bool.and_eq_true, decide_eq_true_eq, ge_iff_le, UInt32.le_iff_toNat_le]
    at h
  obtain ⟨hlow, hhigh⟩ := h
  change 48 ≤ c.toNat at hlow
  change c.toNat ≤ 57 at hhigh
  simp only [isBlank, blankRanges, List.any_cons, List.any_nil, Bool.or_eq_false_iff,
    Bool.and_eq_false_iff, decide_eq_false_iff_not, and_true]
  omega

theorem withoutBlanks_eq_self {source : String}
    (h : ∀ c ∈ source.toList, isBlank c = false) : withoutBlanks source = source := by
  have hfilter : source.toList.filter (fun c => !isBlank c) = source.toList := by
    rw [List.filter_eq_self]
    intro c member
    rw [h c member]
    rfl
  rw [withoutBlanks, hfilter, String.ofList_toList]

theorem Phrase.isBlank_eq_false {current : List Rule} {text : List Char} {symbols : List Symbol}
    {value : Except EvalError Float} (h : Phrase current text symbols value)
    (hsuffix : current <:+ rules) : ∀ c ∈ text, isBlank c = false := by
  have hmarks : ∀ rule ∈ rules, isBlank rule.mark = false := by decide
  induction h with
  | number hdigits => exact fun c member => isBlank_of_isDigit (hdigits.isDigit c member)
  | group _ ih =>
      have hinside := ih (List.suffix_refl rules)
      simpa [or_imp, forall_and] using ⟨by decide, hinside, by decide⟩
  | tighter _ ih => exact ih (suffix_of_cons hsuffix)
  | fromLeft _ _ _ ihleft ihright =>
      have hmark := hmarks _ (mem_rules_of_suffix hsuffix)
      simpa [or_imp, forall_and, hmark] using
        ⟨ihleft hsuffix, ihright (suffix_of_cons hsuffix)⟩
  | fromRight _ _ _ ihleft ihright =>
      have hmark := hmarks _ (mem_rules_of_suffix hsuffix)
      simpa [or_imp, forall_and, hmark] using
        ⟨ihleft (suffix_of_cons hsuffix), ihright hsuffix⟩
  | before _ _ ih | after _ _ ih =>
      have hmark := hmarks _ (mem_rules_of_suffix hsuffix)
      simpa [or_imp, forall_and, hmark] using ih hsuffix

theorem Phrase.result_calculate_ofList {text : List Char} {symbols : List Symbol}
    {value : Except EvalError Float} (h : Phrase rules text symbols value) :
    (calculate (String.ofList text)).result = value.mapError .evaluation := by
  have hblank : ∀ c ∈ (String.ofList text).toList, isBlank c = false := by
    rw [String.toList_ofList]
    exact h.isBlank_eq_false (List.suffix_refl rules)
  have hwhole : Phrase rules (withoutBlanks (String.ofList text)).toList symbols value := by
    rwa [withoutBlanks_eq_self hblank, String.toList_ofList]
  exact hwhole.result_calculate

theorem exists_phrase_of_calculate {source : String} {value : Float}
    (h : (calculate source).result = .ok value) :
    ∃ symbols result, Phrase rules (withoutBlanks source).toList symbols result := by
  obtain ⟨symbols, last, hlexes⟩ := exists_lexes_of_calculate h
  rw [result_calculate_of_lexes hlexes] at h
  cases hresult : (Catalog.standard.evaluateFrom 0 symbols).result with
  | error error =>
      rw [hresult] at h
      contradiction
  | ok found =>
      obtain ⟨result, hphrase⟩ :=
        (result_eq_ok_iff.mp hresult).exists_phrase (spelled_of_lexes hlexes)
      rw [rulesFrom_zero] at hphrase
      exact ⟨symbols, result, hphrase⟩

/-- An operator between its operands takes two of them, any other takes one. -/
theorem operandCount_of_mem_rules {rule : Rule} (h : rule ∈ rules) :
    rule.operator.operation.operandCount = if rule.shape.placement = .between then 2 else 1 := by
  revert rule
  decide

theorem Phrase.failsOnlyAtFactorial {current : List Rule} {text : List Char}
    {symbols : List Symbol} {value : Except EvalError Float}
    (h : Phrase current text symbols value) (hsuffix : current <:+ rules) :
    FailsOnlyAtFactorial value := by
  induction h with
  | number => exact Or.inl ⟨_, rfl⟩
  | group _ ih => exact ih (List.suffix_refl rules)
  | tighter _ ih => exact ih (suffix_of_cons hsuffix)
  | fromLeft hshape _ _ ihleft ihright =>
      have hcount := operandCount_of_mem_rules (mem_rules_of_suffix hsuffix)
      simp only [hshape, Shape.placement, ↓reduceIte] at hcount
      exact (ihleft hsuffix).bind fun first => (ihright (suffix_of_cons hsuffix)).bind fun second =>
        Operator.failsOnlyAtFactorial_binary hcount first second
  | fromRight hshape _ _ ihleft ihright =>
      have hcount := operandCount_of_mem_rules (mem_rules_of_suffix hsuffix)
      simp only [hshape, Shape.placement, ↓reduceIte] at hcount
      exact (ihleft (suffix_of_cons hsuffix)).bind fun first => (ihright hsuffix).bind fun second =>
        Operator.failsOnlyAtFactorial_binary hcount first second
  | before hshape _ ih | after hshape _ ih =>
      have hcount := operandCount_of_mem_rules (mem_rules_of_suffix hsuffix)
      simp only [hshape, Shape.placement, reduceCtorEq, ↓reduceIte] at hcount
      exact (ih hsuffix).bind fun value => Operator.failsOnlyAtFactorial_unary hcount value

/-- A calculation and the recursive descent over the characters that are not white
space agree. The descent succeeds exactly on the phrases of the grammar. There
the calculation has the value of the descent, or fails at a factorial as the
descent does; everywhere else it fails. -/
theorem calculate_agrees_descend (source : String) :
    let text := source.toList.filter fun c => !isBlank c
    (∀ value, descend text = some value ↔ ∃ symbols, Phrase rules text symbols value) ∧
    match descend text with
    | some (.ok value) => (calculate source).result = .ok value
    | some (.error error) => error = .negativeFactorial ∧
        (calculate source).result = .error (.evaluation .negativeFactorial)
    | none => ∃ error, (calculate source).result = .error error := by
  intro text
  have htext : (withoutBlanks source).toList = text := toList_withoutBlanks source
  refine ⟨fun value => descend_eq_some_iff, ?_⟩
  split
  · rename_i value hsome
    obtain ⟨symbols, hphrase⟩ := descend_eq_some_iff.mp hsome
    rw [← htext] at hphrase
    exact hphrase.result_calculate
  · rename_i error hsome
    obtain ⟨symbols, hphrase⟩ := descend_eq_some_iff.mp hsome
    rcases hphrase.failsOnlyAtFactorial (List.suffix_refl rules) with ⟨value, hvalue⟩ | herror
    · contradiction
    · cases herror
      rw [← htext] at hphrase
      exact ⟨rfl, hphrase.result_calculate⟩
  · rename_i hnone
    cases hresult : (calculate source).result with
    | error error => exact ⟨error, rfl⟩
    | ok value =>
        obtain ⟨symbols, result, hphrase⟩ := exists_phrase_of_calculate hresult
        rw [htext] at hphrase
        rw [descend_eq_some_iff.mpr ⟨symbols, hphrase⟩] at hnone
        contradiction

/-- The sum of `1` and `2`, with blanks around and between its symbols. -/
theorem calculate_agrees_descend_spaced :
    let source := " 1 + 2 "
    (source.toList.filter fun c => !isBlank c) = ['1', '+', '2'] ∧
      descend ['1', '+', '2'] = some (.ok 3) ∧ (calculate source).result = .ok 3 := by
  intro source
  have htext : (source.toList.filter fun c => !isBlank c) = ['1', '+', '2'] := by decide
  have hone : Phrase rules ['1'] [.number (digitsValue ['1']) 1] (.ok (digitsValue ['1'])) :=
    (Phrase.number (IsNumeral.of_all (by simp) rfl)).of_suffix rules.nil_suffix
  have htwo : Phrase rules.tail ['2'] [.number (digitsValue ['2']) 1] (.ok (digitsValue ['2'])) :=
    (Phrase.number (IsNumeral.of_all (by simp) rfl)).of_suffix rules.tail.nil_suffix
  have hsum : descend ['1', '+', '2'] = some (.ok (digitsValue ['1'] + digitsValue ['2'])) :=
    descend_eq_some_iff.mpr ⟨_, .fromLeft rfl hone htwo⟩
  have hthree : digitsValue ['1'] + digitsValue ['2'] = 3 := by decide +kernel
  rw [hthree] at hsum
  have hagrees := (calculate_agrees_descend source).2
  rw [htext, hsum] at hagrees
  exact ⟨htext, hsum, hagrees⟩

end Calculator
