import Calculator.Proofs.Grammar

/-!
Evaluation gives every phrase the value that the grammar gives it. The slice of
a phrase is cut where its outermost rule was applied: the operators before that
rule on the ladder do not occur in it, and on the side that is scanned first the
operator of the rule itself does not occur either.
-/

namespace Calculator

open Piece Catalog

variable {rule : Rule} {current tighter : List Rule} {text : List Char} {symbols : List Symbol}
variable {value : Except EvalError Float} {loosest : Nat}

/-- A rule is no tighter than those after it and has another operation. -/
theorem compare_of_suffix (hsuffix : rule :: tighter <:+ rules) :
    ∀ other ∈ tighter, rule.operator.precedence ≤ other.operator.precedence ∧
      rule.operator.operation ≠ other.operator.operation :=
  (List.pairwise_cons.mp (pairwise_rules.sublist hsuffix.sublist)).1

theorem precedence_le_of_suffix (hsuffix : rule :: tighter <:+ rules) :
    ∀ other ∈ rule :: tighter, rule.operator.precedence ≤ other.operator.precedence := by
  intro other member
  rcases List.mem_cons.mp member with rfl | later
  · exact Nat.le_refl _
  · exact (compare_of_suffix hsuffix other later).1

/-- The ladder up to a rule holds operators of looser rules only. -/
theorem exists_ladder_eq (hsuffix : rule :: tighter <:+ rules)
    (hle : loosest ≤ rule.operator.precedence) :
    ∃ earlier later, Catalog.standard.ladder loosest = earlier ++ rule.operator :: later ∧
      ∀ o ∈ earlier, ∀ other ∈ rule :: tighter, other.operator.operation ≠ o.operation := by
  obtain ⟨looser, hrules⟩ := hsuffix
  have hpairwise := pairwise_rules
  rw [← hrules] at hpairwise
  refine ⟨(looser.filter fun other => loosest ≤ other.operator.precedence).map Rule.operator,
    (tighter.filter fun other => loosest ≤ other.operator.precedence).map Rule.operator, ?_, ?_⟩
  · rw [ladder_standard, ← hrules]
    simp [hle]
  · intro o member other hother
    obtain ⟨found, hfound, rfl⟩ := List.mem_map.mp member
    have hlooser := (List.mem_filter.mp hfound).1
    exact ((List.pairwise_append.mp hpairwise).2.2 found hlooser other hother).2.symm

/-- A slice with no operators but those of a rule and tighter ones is cut around
the rule. -/
theorem cut?_of_suffix (hsuffix : rule :: tighter <:+ rules) {slice : List Symbol}
    {before after : List Piece} {entry : Operator}
    (hsplits : rule.operator.Splits (pieces slice) before entry after)
    (haccepts : rule.operator.Accepts before after)
    (honly : ∀ o : Operator, o.OccursIn (pieces slice) →
      ∃ other ∈ rule :: tighter, other.operator.operation = o.operation)
    (hle : loosest ≤ rule.operator.precedence) :
    Catalog.standard.cut? loosest slice =
      some (.ok ⟨rule.operator, join before, entry, join after⟩) := by
  obtain ⟨earlier, later, hladder, hearlier⟩ := exists_ladder_eq hsuffix hle
  have hdefect := (operator_of_mem_rules (mem_rules_of_suffix hsuffix)).1
  refine cut?_eq_some_iff.mpr ⟨earlier, rule.operator, later, hladder,
    Operator.cut?_eq_ok_iff.mpr ⟨hdefect, before, entry, after, hsplits, haccepts, rfl⟩, ?_⟩
  intro o member
  apply Classical.byContradiction
  intro hsome
  obtain ⟨other, hother, hoperation⟩ := honly o (Operator.occursIn_of_cut?_ne_none hsome)
  exact hearlier o member other hother hoperation

namespace Phrase

theorem not_sentinel (h : Phrase current text symbols value) :
    .start ∉ symbols ∧ .finish ∉ symbols := by
  induction h with
  | number => simp
  | group _ ih => simp [parenthesis, ih]
  | tighter _ ih => exact ih
  | fromLeft _ _ _ ihleft ihright | fromRight _ _ _ ihleft ihright =>
      simp [Rule.symbol, ihleft, ihright]
  | before _ _ ih | after _ _ ih => simp [Rule.symbol, ih]

theorem dropSentinels_eq (h : Phrase current text symbols value) :
    dropSentinels symbols = symbols :=
  dropSentinels_of_not_mem h.not_sentinel.1 h.not_sentinel.2

theorem symbols_ne_nil (h : Phrase current text symbols value) : symbols ≠ [] := by
  induction h with
  | tighter _ ih => exact ih
  | _ => simp

theorem pieces_ne_nil (h : Phrase current text symbols value) : pieces symbols ≠ [] := by
  intro hnil
  apply h.symbols_ne_nil
  rw [← join_pieces symbols, hnil, join_nil]

/-- The operator of a rule does not occur in a phrase of the tighter ones. -/
theorem not_occursIn (h : Phrase tighter text symbols value)
    (hsuffix : rule :: tighter <:+ rules) : ¬ rule.operator.OccursIn (pieces symbols) := by
  intro hoccurs
  obtain ⟨other, member, hoperation⟩ := h.exists_rule_of_occursIn hoccurs
  exact (compare_of_suffix hsuffix other member).2 hoperation.symm

/-- A phrase is evaluated around the occurrence that its loosest rule accepts. -/
theorem result_of_splits (h : Phrase (rule :: tighter) text symbols value)
    (hsuffix : rule :: tighter <:+ rules) {before after : List Piece}
    (hsplits : pieces symbols = before ++ .lone rule.symbol :: after)
    (haccepts : rule.operator.Accepts before after) (hside : before ≠ [] ∨ after ≠ [])
    (hle : loosest ≤ rule.operator.precedence) :
    (Catalog.standard.evaluateFrom loosest symbols).result =
      Catalog.standard.resultAround ⟨rule.operator, join before, rule.operator, join after⟩ := by
  have hcut := cut?_of_suffix hsuffix ⟨⟨1, hsplits⟩, rfl⟩ haccepts
    (fun o => h.exists_rule_of_occursIn) hle
  exact result_of_cut? h.dropSentinels_eq hsplits hside hcut

/-- A phrase with an operator between two operands is evaluated around it, if
the scan for that operator meets it first. -/
theorem result_of_between {rest : List Rule} {leftText : List Char} {left right : List Symbol}
    {first : Except EvalError Float} (hleft : Phrase rest leftText left first)
    (h : Phrase (rule :: tighter) text (left ++ rule.symbol :: right) value)
    (hsuffix : rule :: tighter <:+ rules) (hplacement : rule.operator.placement = .between)
    (hfirst : rule.operator.MeetsFirst (pieces left) (pieces right))
    (hle : loosest ≤ rule.operator.precedence) :
    (Catalog.standard.evaluateFrom loosest (left ++ rule.symbol :: right)).result =
      rule.binary (Catalog.standard.evaluateFrom rule.operator.precedence left).result
        (Catalog.standard.evaluateFrom rule.operator.precedence right).result := by
  have haccepts : rule.operator.Accepts (pieces left) (pieces right) := by
    simpa only [Operator.Accepts, hplacement] using hfirst
  rw [h.result_of_splits hsuffix (hleft.pieces_append rule right) haccepts
    (Or.inl hleft.pieces_ne_nil) hle]
  simp only [resultAround, hplacement, join_pieces]
  rfl

/-- The value of a phrase is that of its symbols, with the operators of any
precedence up to those of its rules. -/
theorem result_evaluateFrom (h : Phrase current text symbols value) (hsuffix : current <:+ rules)
    (hle : ∀ rule ∈ current, loosest ≤ rule.operator.precedence) :
    (Catalog.standard.evaluateFrom loosest symbols).result = value := by
  induction h generalizing loosest with
  | number hdigits =>
      rw [result_of_single (Phrase.number hdigits).dropSentinels_eq]
      rfl
  | @group text symbols value hinside ih =>
      have hgroup : pieces (dropSentinels
          (parenthesis .opening :: (symbols ++ [parenthesis .closing]))) =
          [.group (parenthesis .opening) symbols (parenthesis .closing)] := by
        rw [(Phrase.group hinside).dropSentinels_eq]
        exact pieces_group_append rfl hinside.balanced rfl []
      rw [result_of_group hgroup]
      exact ih (List.suffix_refl rules) fun _ _ => Nat.zero_le _
  | tighter _ ih =>
      exact ih (suffix_of_cons hsuffix) fun rule member => hle rule (List.mem_cons_of_mem _ member)
  | @fromLeft rule tighter _ _ left right _ _ hshape hleft hright ihleft ihright =>
      obtain ⟨-, hplacement, hgroups⟩ := operator_of_mem_rules (mem_rules_of_suffix hsuffix)
      simp only [hshape, Shape.placement, decide_true] at hplacement hgroups
      have hfirst : rule.operator.MeetsFirst (pieces left) (pieces right) := by
        simpa [Operator.MeetsFirst, hgroups] using hright.not_occursIn hsuffix
      rw [hleft.result_of_between (.fromLeft hshape hleft hright) hsuffix hplacement hfirst
        (hle rule List.mem_cons_self), ihleft hsuffix (precedence_le_of_suffix hsuffix),
        ihright (suffix_of_cons hsuffix) fun other member =>
          (compare_of_suffix hsuffix other member).1]
  | @fromRight rule tighter _ _ left right _ _ hshape hleft hright ihleft ihright =>
      obtain ⟨-, hplacement, hgroups⟩ := operator_of_mem_rules (mem_rules_of_suffix hsuffix)
      simp only [hshape, Shape.placement] at hplacement hgroups
      have hfirst : rule.operator.MeetsFirst (pieces left) (pieces right) := by
        simpa [Operator.MeetsFirst, hgroups] using hleft.not_occursIn hsuffix
      rw [hleft.result_of_between (.fromRight hshape hleft hright) hsuffix hplacement hfirst
        (hle rule List.mem_cons_self), ihright hsuffix (precedence_le_of_suffix hsuffix),
        ihleft (suffix_of_cons hsuffix) fun other member =>
          (compare_of_suffix hsuffix other member).1]
  | @before rule tighter _ symbols _ hshape hoperand ih =>
      obtain ⟨-, hplacement, -⟩ := operator_of_mem_rules (mem_rules_of_suffix hsuffix)
      simp only [hshape, Shape.placement] at hplacement
      have haccepts : rule.operator.Accepts [] (pieces symbols) := by
        simp [Operator.Accepts, hplacement]
      rw [(Phrase.before hshape hoperand).result_of_splits hsuffix
        (pieces_symbol_cons rule symbols) haccepts (Or.inr hoperand.pieces_ne_nil)
        (hle rule List.mem_cons_self)]
      simp only [resultAround, hplacement, join_pieces]
      rw [ih hsuffix (precedence_le_of_suffix hsuffix)]
      rfl
  | @after rule tighter _ symbols _ hshape hoperand ih =>
      obtain ⟨-, hplacement, -⟩ := operator_of_mem_rules (mem_rules_of_suffix hsuffix)
      simp only [hshape, Shape.placement] at hplacement
      have haccepts : rule.operator.Accepts (pieces symbols) (pieces []) := by
        simp [Operator.Accepts, hplacement]
      rw [(Phrase.after hshape hoperand).result_of_splits hsuffix
        (hoperand.pieces_append rule []) haccepts (Or.inl hoperand.pieces_ne_nil)
        (hle rule List.mem_cons_self)]
      simp only [resultAround, hplacement, join_pieces]
      rw [ih hsuffix (precedence_le_of_suffix hsuffix)]
      rfl

end Phrase

end Calculator
