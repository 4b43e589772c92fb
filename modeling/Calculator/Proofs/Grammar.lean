import Calculator.Catalog.Standard
import Calculator.Proofs.Evaluation
import Calculator.Proofs.Lexing

/-!
The standard notation as a stratified grammar. One rule for each operator says
how phrases are made of tighter ones, so the grammar is not ambiguous: a phrase
is read in one way and has one value.
-/

namespace Calculator

open Piece

/-- How a rule makes a phrase `X` out of phrases `Y` of the tighter rules. -/
inductive Shape where
  /-- `X ::= Y (mark Y)*`, folded from the left -/
  | fromLeft
  /-- `X ::= Y (mark X)?` -/
  | fromRight
  /-- `X ::= mark X | Y` -/
  | before
  /-- `X ::= Y mark*` -/
  | after
  deriving DecidableEq

def Shape.placement : Shape → Placement
  | .fromLeft | .fromRight => .between
  | .before => .before
  | .after => .after

theorem Shape.placement_eq_before_iff {shape : Shape} :
    shape.placement = .before ↔ shape = .before := by
  cases shape <;> simp [placement]

theorem Shape.placement_eq_after_iff {shape : Shape} :
    shape.placement = .after ↔ shape = .after := by
  cases shape <;> simp [placement]

theorem Shape.placement_eq_between_iff {shape : Shape} :
    shape.placement = .between ↔ shape = .fromLeft ∨ shape = .fromRight := by
  cases shape <;> simp [placement]

structure Rule where
  mark : Char
  shape : Shape
  operator : Operator
  deriving DecidableEq

/-- The rules from the loosest to the tightest. Below them are the atoms, which
are numerals and bracketed phrases. Written out they are

  Sum ::= Diff ('+' Diff)*
  Diff ::= Neg ('-' Neg)*
  Neg ::= '-' Neg | Prod
  Prod ::= Quot ('*' Quot)*
  Quot ::= Pow ('/' Pow)*
  Pow ::= Post ('^' Pow)?
  Post ::= Atom '!'*
  Atom ::= digit+ | '(' Sum ')' -/
def rules : List Rule :=
  [ ⟨'+', .fromLeft, .addition⟩, ⟨'-', .fromLeft, .subtraction⟩,
    ⟨'-', .before, .negation⟩, ⟨'*', .fromLeft, .multiplication⟩,
    ⟨'/', .fromLeft, .division⟩, ⟨'^', .fromRight, .exponentiation⟩,
    ⟨'!', .after, .factorial⟩ ]

namespace Rule

def symbol (rule : Rule) : Symbol := .operator rule.operator 1

def unary (rule : Rule) (operand : Except EvalError Float) : Except EvalError Float :=
  operand >>= fun value => rule.operator.apply (.unary value)

def binary (rule : Rule) (left right : Except EvalError Float) : Except EvalError Float := do
  let first ← left
  let second ← right
  rule.operator.apply (.binary first second)

end Rule

theorem pieces_symbol_cons (rule : Rule) (symbols : List Symbol) :
    pieces (rule.symbol :: symbols) = [] ++ .lone rule.symbol :: pieces symbols :=
  pieces_operator_cons rule.operator 1 symbols

def parenthesis (side : Side) : Symbol := .bracket standardBrackets[0] side 1

/-- The phrases of a list of rules: the text, its symbols and its value. -/
inductive Phrase :
    List Rule → List Char → List Symbol → Except EvalError Float → Prop where
  | number {digits : List Char} (hdigits : IsNumeral digits) :
      Phrase [] digits [.number (digitsValue digits) (byteCount digits)]
        (.ok (digitsValue digits))
  | group {text : List Char} {symbols : List Symbol} {value : Except EvalError Float}
      (hinside : Phrase rules text symbols value) :
      Phrase [] ('(' :: (text ++ [')']))
        (parenthesis .opening :: (symbols ++ [parenthesis .closing])) value
  | tighter {rule : Rule} {tighter : List Rule} {text : List Char} {symbols : List Symbol}
      {value : Except EvalError Float} (h : Phrase tighter text symbols value) :
      Phrase (rule :: tighter) text symbols value
  | fromLeft {rule : Rule} {tighter : List Rule} {leftText rightText : List Char}
      {left right : List Symbol} {first second : Except EvalError Float}
      (hshape : rule.shape = .fromLeft) (hleft : Phrase (rule :: tighter) leftText left first)
      (hright : Phrase tighter rightText right second) :
      Phrase (rule :: tighter) (leftText ++ rule.mark :: rightText)
        (left ++ rule.symbol :: right) (rule.binary first second)
  | fromRight {rule : Rule} {tighter : List Rule} {leftText rightText : List Char}
      {left right : List Symbol} {first second : Except EvalError Float}
      (hshape : rule.shape = .fromRight) (hleft : Phrase tighter leftText left first)
      (hright : Phrase (rule :: tighter) rightText right second) :
      Phrase (rule :: tighter) (leftText ++ rule.mark :: rightText)
        (left ++ rule.symbol :: right) (rule.binary first second)
  | before {rule : Rule} {tighter : List Rule} {text : List Char} {symbols : List Symbol}
      {value : Except EvalError Float} (hshape : rule.shape = .before)
      (hoperand : Phrase (rule :: tighter) text symbols value) :
      Phrase (rule :: tighter) (rule.mark :: text) (rule.symbol :: symbols) (rule.unary value)
  | after {rule : Rule} {tighter : List Rule} {text : List Char} {symbols : List Symbol}
      {value : Except EvalError Float} (hshape : rule.shape = .after)
      (hoperand : Phrase (rule :: tighter) text symbols value) :
      Phrase (rule :: tighter) (text ++ [rule.mark]) (symbols ++ [rule.symbol])
        (rule.unary value)

/-- The operator of a rule stands and groups as its shape says. -/
theorem operator_of_mem_rules {rule : Rule} (h : rule ∈ rules) :
    rule.operator.defect? = none ∧ rule.operator.placement = rule.shape.placement ∧
      rule.operator.groupsFromLeft = decide (rule.shape = .fromLeft) := by
  revert rule
  decide

/-- Looser rules have operators of no greater precedence and of other operations. -/
theorem pairwise_rules :
    rules.Pairwise fun looser tighter =>
      looser.operator.precedence ≤ tighter.operator.precedence ∧
        looser.operator.operation ≠ tighter.operator.operation := by
  decide

theorem mark_of_mem_rules {rule : Rule} (h : rule ∈ rules) :
    rule.mark.isDigit = false ∧ rule.mark ≠ '(' ∧ rule.mark ≠ ')' := by
  revert rule
  decide

/-- Only a minus sign is the mark of two rules. -/
theorem pairwise_marks :
    rules.Pairwise fun looser tighter => looser.mark = tighter.mark →
      looser.operator = .subtraction ∧ looser.shape ≠ .before ∧
        tighter.shape = .before := by
  decide

theorem endsDigits_mark {rule : Rule} (h : rule ∈ rules) (rest : List Char) :
    EndsDigits (rule.mark :: rest) := by
  intro c hc
  cases hc
  exact (mark_of_mem_rules h).1

theorem mem_rules_of_suffix {rule : Rule} {tighter : List Rule}
    (hsuffix : rule :: tighter <:+ rules) : rule ∈ rules :=
  hsuffix.mem List.mem_cons_self

theorem suffix_of_cons {rule : Rule} {tighter : List Rule}
    (hsuffix : rule :: tighter <:+ rules) : tighter <:+ rules :=
  (List.suffix_cons rule tighter).trans hsuffix

/-- The ladder of the standard catalog follows the rules. -/
theorem ladder_standard (loosest : Nat) :
    Catalog.standard.ladder loosest =
      (rules.filter fun rule => loosest ≤ rule.operator.precedence).map Rule.operator := by
  have hrules : Catalog.standard.ranked = rules.map Rule.operator := rfl
  rw [Catalog.ladder_eq_filter_ranked, hrules, List.filter_map]
  rfl

namespace Phrase

variable {rule : Rule} {current tighter : List Rule} {text : List Char} {symbols : List Symbol}
variable {value : Except EvalError Float}

theorem balanced (h : Phrase current text symbols value) : Balanced .opening symbols := by
  induction h with
  | number => exact .plain rfl .nil
  | group _ ih => exact Balanced.wrap rfl ih rfl
  | tighter _ ih => exact ih
  | fromLeft _ _ _ ihleft ihright | fromRight _ _ _ ihleft ihright =>
      exact ihleft.append (.plain rfl ihright)
  | before _ _ ih => exact .plain rfl ih
  | after _ _ ih => exact ih.append (.plain rfl .nil)

/-- The operator of a rule parts the pieces of what stands around it. -/
theorem pieces_append {left : List Symbol} (h : Phrase current text left value) (rule : Rule)
    (right : List Symbol) :
    pieces (left ++ rule.symbol :: right) = pieces left ++ .lone rule.symbol :: pieces right :=
  pieces_balanced_operator h.balanced rule.operator 1 right

/-- The operators outside the brackets of a phrase are those of its rules. -/
theorem exists_rule_of_occursIn (h : Phrase current text symbols value) {o : Operator}
    (hoccurs : o.OccursIn (pieces symbols)) :
    ∃ rule ∈ current, rule.operator.operation = o.operation := by
  induction h with
  | number => simp [Operator.OccursIn, Piece.operator?, Symbol.operator?] at hoccurs
  | @group text symbols value hinside _ =>
      have hgroup : pieces (parenthesis .opening :: (symbols ++ [parenthesis .closing])) =
          [.group (parenthesis .opening) symbols (parenthesis .closing)] :=
        pieces_group_append rfl hinside.balanced rfl []
      rw [hgroup] at hoccurs
      simp [Operator.OccursIn, Piece.operator?] at hoccurs
  | tighter _ ih =>
      obtain ⟨rule, member, hrule⟩ := ih hoccurs
      exact ⟨rule, List.mem_cons_of_mem _ member, hrule⟩
  | @fromLeft rule tighter _ _ _ right _ _ _ hleft _ ihleft ihright =>
      rw [hleft.pieces_append rule right, Rule.symbol, Operator.occursIn_operator] at hoccurs
      rcases hoccurs with inLeft | here | inRight
      · exact ihleft inLeft
      · exact ⟨rule, List.mem_cons_self, here⟩
      · obtain ⟨other, member, hother⟩ := ihright inRight
        exact ⟨other, List.mem_cons_of_mem _ member, hother⟩
  | @fromRight rule tighter _ _ _ right _ _ _ hleft _ ihleft ihright =>
      rw [hleft.pieces_append rule right, Rule.symbol, Operator.occursIn_operator] at hoccurs
      rcases hoccurs with inLeft | here | inRight
      · obtain ⟨other, member, hother⟩ := ihleft inLeft
        exact ⟨other, List.mem_cons_of_mem _ member, hother⟩
      · exact ⟨rule, List.mem_cons_self, here⟩
      · exact ihright inRight
  | @before rule _ _ _ _ _ _ ih =>
      rw [pieces_symbol_cons, Rule.symbol, Operator.occursIn_operator] at hoccurs
      rcases hoccurs with absent | here | later
      · exact absurd absent Operator.not_occursIn_nil
      · exact ⟨rule, List.mem_cons_self, here⟩
      · exact ih later
  | @after rule tighter _ symbols _ _ hoperand ih =>
      rw [hoperand.pieces_append rule [], Rule.symbol, Operator.occursIn_operator] at hoccurs
      rcases hoccurs with earlier | here | absent
      · exact ih earlier
      · exact ⟨rule, List.mem_cons_self, here⟩
      · exact absurd absent Operator.not_occursIn_nil

theorem of_suffix (h : Phrase tighter text symbols value) (hsuffix : tighter <:+ current) :
    Phrase current text symbols value := by
  obtain ⟨looser, rfl⟩ := hsuffix
  induction looser with
  | nil => exact h
  | cons rule rest ih => exact .tighter ih

/-- Without the operator of the loosest rule a phrase is one of the tighter rules. -/
theorem tighten (h : Phrase (rule :: tighter) text symbols value)
    (habsent : ¬ rule.operator.OccursIn (pieces symbols)) :
    Phrase tighter text symbols value := by
  cases h with
  | tighter h => exact h
  | fromLeft _ hleft _ | fromRight _ hleft _ =>
      rw [hleft.pieces_append, Rule.symbol, Operator.occursIn_operator] at habsent
      exact absurd (Or.inr (Or.inl rfl)) habsent
  | before =>
      rw [pieces_symbol_cons, Rule.symbol, Operator.occursIn_operator] at habsent
      exact absurd (Or.inr (Or.inl rfl)) habsent
  | after _ hoperand =>
      rw [hoperand.pieces_append, Rule.symbol, Operator.occursIn_operator] at habsent
      exact absurd (Or.inr (Or.inl rfl)) habsent

end Phrase

end Calculator
