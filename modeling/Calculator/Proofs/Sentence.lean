import Calculator.Catalog.Standard
import Calculator.Proofs.Evaluation

/-!
The expressions of a catalog, as a grammar that leaves open how operators of one
precedence group. Evaluation commits to the first cut that it finds and never
tries another one. It accepts every sentence of the grammar nevertheless,
because whatever stands beside an operator of the loosest precedence of a
sentence is a sentence of that precedence.
-/

namespace Calculator

open Piece

def Operation.operandCount : Operation → Nat
  | .negate | .factorial => 1
  | _ => 2

def FailsOnlyAtFactorial (result : Except EvalError Float) : Prop :=
  (∃ value, result = .ok value) ∨ result = .error .negativeFactorial

theorem FailsOnlyAtFactorial.bind {result : Except EvalError Float}
    {next : Float → Except EvalError Float} (h : FailsOnlyAtFactorial result)
    (hnext : ∀ value, FailsOnlyAtFactorial (next value)) :
    FailsOnlyAtFactorial (result >>= next) := by
  rcases h with ⟨value, rfl⟩ | rfl
  · exact hnext value
  · exact Or.inr rfl

theorem failsOnlyAtFactorial_factorial (x : Float) : FailsOnlyAtFactorial (factorial x) := by
  unfold factorial
  split
  · exact Or.inl ⟨_, rfl⟩
  · split
    · exact Or.inr rfl
    · exact Or.inl ⟨_, rfl⟩
  · split
    · exact Or.inr rfl
    · split
      · exact Or.inr rfl
      · split
        · exact Or.inl ⟨_, rfl⟩
        · exact Or.inl ⟨_, rfl⟩

theorem Operator.failsOnlyAtFactorial_unary {o : Operator} (h : o.operation.operandCount = 1)
    (value : Float) : FailsOnlyAtFactorial (o.apply (.unary value)) := by
  unfold apply
  cases hoperation : o.operation with
  | negate => exact Or.inl ⟨_, rfl⟩
  | factorial => exact failsOnlyAtFactorial_factorial value
  | _ => simp [hoperation, Operation.operandCount] at h

theorem Operator.failsOnlyAtFactorial_binary {o : Operator} (h : o.operation.operandCount = 2)
    (left right : Float) : FailsOnlyAtFactorial (o.apply (.binary left right)) := by
  unfold apply
  cases hoperation : o.operation with
  | negate | factorial => simp [hoperation, Operation.operandCount] at h
  | _ => exact Or.inl ⟨_, rfl⟩

namespace Catalog

/-- The sentences of a precedence. A bracket pair may be of any entry, and an
operator symbol of any entry with the operation of the operator. -/
inductive Sentence (catalog : Catalog) : Nat → List Symbol → Prop where
  | number (precedence : Nat) (value : Float) (length : Nat) :
      Sentence catalog precedence [.number value length]
  | group (precedence : Nat) (first last : BracketPair) (firstLength lastLength : Nat)
      {inside : List Symbol} (hinside : Sentence catalog 0 inside) :
      Sentence catalog precedence
        (.bracket first .opening firstLength :: (inside ++ [.bracket last .closing lastLength]))
  | between {o entry : Operator} {left right : List Symbol} (length : Nat)
      (ho : o ∈ catalog.operators) (hplacement : o.placement = .between)
      (hentry : entry.operation = o.operation) (hleft : Sentence catalog o.precedence left)
      (hright : Sentence catalog o.precedence right) :
      Sentence catalog o.precedence (left ++ .operator entry length :: right)
  | before {o entry : Operator} {operand : List Symbol} (length : Nat)
      (ho : o ∈ catalog.operators) (hplacement : o.placement = .before)
      (hentry : entry.operation = o.operation) (hoperand : Sentence catalog o.precedence operand) :
      Sentence catalog o.precedence (.operator entry length :: operand)
  | after {o entry : Operator} {operand : List Symbol} (length : Nat)
      (ho : o ∈ catalog.operators) (hplacement : o.placement = .after)
      (hentry : entry.operation = o.operation) (hoperand : Sentence catalog o.precedence operand) :
      Sentence catalog o.precedence (operand ++ [.operator entry length])
  | tighter {precedence : Nat} {symbols : List Symbol}
      (h : Sentence catalog (precedence + 1) symbols) : Sentence catalog precedence symbols

namespace Sentence

variable {catalog : Catalog} {precedence : Nat} {symbols : List Symbol}

/-- A sentence of a precedence is one of every looser precedence. -/
theorem of_le {looser : Nat} (h : catalog.Sentence precedence symbols)
    (hle : looser ≤ precedence) : catalog.Sentence looser symbols := by
  obtain ⟨steps, rfl⟩ := Nat.exists_eq_add_of_le hle
  induction steps with
  | zero => exact h
  | succ steps ih => exact ih (.tighter h) (by omega)

theorem balanced (h : catalog.Sentence precedence symbols) : Balanced .opening symbols := by
  induction h with
  | number => exact .plain rfl .nil
  | group precedence first last firstLength lastLength _ ih => exact Balanced.wrap rfl ih rfl
  | between _ _ _ _ _ _ ihleft ihright => exact ihleft.append (.plain rfl ihright)
  | before _ _ _ _ _ ih => exact .plain rfl ih
  | after _ _ _ _ _ ih => exact ih.append (.plain rfl .nil)
  | tighter _ ih => exact ih

theorem ne_nil (h : catalog.Sentence precedence symbols) : symbols ≠ [] := by
  induction h with
  | tighter _ ih => exact ih
  | _ => simp

theorem not_sentinel (h : catalog.Sentence precedence symbols) :
    .start ∉ symbols ∧ .finish ∉ symbols := by
  induction h with
  | tighter _ ih => exact ih
  | _ => simp_all

theorem length_ne_one_of_not_number (h : catalog.Sentence precedence symbols)
    (hnot : ∀ value length, symbols ≠ [.number value length]) : symbols.length ≠ 1 := by
  induction h with
  | number precedence value length => exact absurd rfl (hnot value length)
  | group => simp
  | between _ _ _ _ hleft _ =>
      have hpositive := List.length_pos_iff.mpr hleft.ne_nil
      rw [List.length_append, List.length_cons]
      omega
  | before _ _ _ _ hoperand => simp [hoperand.ne_nil]
  | after _ _ _ _ hoperand => simp [hoperand.ne_nil]
  | tighter _ ih => exact ih hnot

theorem pieces_group (h : catalog.Sentence precedence symbols) (first last : BracketPair)
    (firstLength lastLength : Nat) :
    pieces (.bracket first .opening firstLength ::
        (symbols ++ [.bracket last .closing lastLength])) =
      [.group (.bracket first .opening firstLength) symbols
        (.bracket last .closing lastLength)] :=
  pieces_group_append rfl h.balanced rfl []

/-- Outside brackets a sentence has only operators of its precedence and of
tighter ones. -/
theorem exists_operator (h : catalog.Sentence precedence symbols) {piece : Piece}
    (hpiece : piece ∈ pieces symbols) {entry : Operator} (hentry : piece.operator? = some entry) :
    ∃ o ∈ catalog.operators, o.operation = entry.operation ∧ precedence ≤ o.precedence := by
  induction h with
  | number precedence value length =>
      simp only [pieces_singleton, List.mem_singleton] at hpiece
      subst hpiece
      cases hentry
  | group precedence first last firstLength lastLength hinside _ =>
      rw [hinside.pieces_group, List.mem_singleton] at hpiece
      subst hpiece
      cases hentry
  | @between o found left right length ho hplacement hfound hleft hright ihleft ihright =>
      rw [pieces_balanced_operator hleft.balanced] at hpiece
      rcases List.mem_append.mp hpiece with inLeft | atRoot
      · exact ihleft inLeft
      · rcases List.mem_cons.mp atRoot with rfl | inRight
        · cases hentry
          exact ⟨o, ho, hfound.symm, Nat.le_refl _⟩
        · exact ihright inRight
  | @before o found operand length ho hplacement hfound hoperand ih =>
      rw [pieces_operator_cons] at hpiece
      rcases List.mem_cons.mp hpiece with rfl | inOperand
      · cases hentry
        exact ⟨o, ho, hfound.symm, Nat.le_refl _⟩
      · exact ih inOperand
  | @after o found operand length ho hplacement hfound hoperand ih =>
      rw [pieces_balanced_operator hoperand.balanced] at hpiece
      rcases List.mem_append.mp hpiece with inOperand | atRoot
      · exact ih inOperand
      · rw [pieces_nil, List.mem_singleton] at atRoot
        subst atRoot
        cases hentry
        exact ⟨o, ho, hfound.symm, Nat.le_refl _⟩
  | tighter _ ih =>
      obtain ⟨o, ho, hoperation, hle⟩ := ih hpiece
      exact ⟨o, ho, hoperation, by omega⟩

/-- Beside an operator of its own precedence, a sentence is made of sentences of
that precedence: to the right unless the operator follows its operand, and to
the left unless it precedes it. -/
theorem of_splits (hkinds : (catalog.operators.map Operator.operation).Nodup)
    (h : catalog.Sentence precedence symbols) {o entry : Operator} {before after : List Piece}
    (ho : o ∈ catalog.operators) (hprecedence : o.precedence = precedence)
    (hsplits : o.Splits (pieces symbols) before entry after) :
    (o.placement ≠ .after → catalog.Sentence precedence (join after)) ∧
      (o.placement ≠ .before → catalog.Sentence precedence (join before)) := by
  have hsame {other found : Operator} (hother : other ∈ catalog.operators)
      (hfound : found.operation = other.operation) (hentry : found.operation = o.operation) :
      other = o :=
    Operator.eq_of_operation_eq hkinds other hother o ho (hfound.symm.trans hentry)
  induction h generalizing before after with
  | number precedence value length =>
      obtain ⟨piece, member, found, hfound, -⟩ := hsplits.occursIn
      simp only [pieces_singleton, List.mem_singleton] at member
      subst member
      cases hfound
  | group precedence first last firstLength lastLength hinside _ =>
      obtain ⟨piece, member, found, hfound, -⟩ := hsplits.occursIn
      rw [hinside.pieces_group, List.mem_singleton] at member
      subst member
      cases hfound
  | @between other found left right length hother hplacement hfound hleft hright ihleft ihright =>
      rw [pieces_balanced_operator hleft.balanced] at hsplits
      rcases hsplits.cases_middle with ⟨inner, hinner, rfl⟩ | ⟨rfl, -, rfl⟩ | ⟨inner, hinner, rfl⟩
      · obtain ⟨hafter, hbefore⟩ := ihleft hprecedence hinner
        refine ⟨fun hnot => ?_, hbefore⟩
        rw [join_append, join_lone, join_pieces]
        exact .between length hother hplacement hfound (hafter hnot) hright
      · rw [join_pieces, join_pieces]
        exact ⟨fun _ => hright, fun _ => hleft⟩
      · obtain ⟨hafter, hbefore⟩ := ihright hprecedence hinner
        refine ⟨hafter, fun hnot => ?_⟩
        rw [join_append, join_lone, join_pieces]
        exact .between length hother hplacement hfound hleft (hbefore hnot)
  | @before other found operand length hother hplacement hfound hoperand ih =>
      rw [pieces_operator_cons, ← List.nil_append (_ :: _)] at hsplits
      rcases hsplits.cases_middle with
        ⟨inner, hinner, -⟩ | ⟨rfl, hroot, rfl⟩ | ⟨inner, hinner, rfl⟩
      · exact absurd hinner.occursIn Operator.not_occursIn_nil
      · cases hroot
        have hother' := hsame hother hfound hsplits.operation_eq
        subst hother'
        rw [join_pieces]
        exact ⟨fun _ => hoperand, fun hnot => absurd hplacement hnot⟩
      · obtain ⟨hafter, hbefore⟩ := ih hprecedence hinner
        exact ⟨hafter, fun hnot => .before length hother hplacement hfound (hbefore hnot)⟩
  | @after other found operand length hother hplacement hfound hoperand ih =>
      rw [pieces_balanced_operator hoperand.balanced] at hsplits
      rcases hsplits.cases_middle with ⟨inner, hinner, rfl⟩ | ⟨rfl, hroot, rfl⟩ | ⟨inner, hinner, -⟩
      · obtain ⟨hafter, hbefore⟩ := ih hprecedence hinner
        refine ⟨fun hnot => ?_, hbefore⟩
        rw [join_append]
        exact .after length hother hplacement hfound (hafter hnot)
      · cases hroot
        have hother' := hsame hother hfound hsplits.operation_eq
        subst hother'
        simp only [join_pieces]
        exact ⟨fun hnot => absurd hplacement hnot, fun _ => hoperand⟩
      · exact absurd hinner.occursIn Operator.not_occursIn_nil
  | tighter h _ =>
      -- An operator of the looser precedence cannot occur in a tighter sentence.
      obtain ⟨piece, member, found, hfound, hoperation⟩ := hsplits.occursIn
      obtain ⟨other, hother, hsameOperation, hle⟩ := h.exists_operator member hfound
      have hother' := hsame hother hsameOperation.symm hoperation
      subst hother'
      omega

/-- A sentence is a number, a group around a sentence, or has a root: an operator
of at least its precedence that has a cut in it. -/
theorem cases_root (hdefects : ∀ o ∈ catalog.operators, o.defect? = none)
    (h : catalog.Sentence precedence symbols) :
    (∃ value length, symbols = [.number value length]) ∨
      (∃ first inside last, pieces symbols = [.group first inside last] ∧
        catalog.Sentence 0 inside) ∨
      ∃ o ∈ catalog.operators, precedence ≤ o.precedence ∧
        catalog.Sentence o.precedence symbols ∧ o.cut? symbols ≠ none := by
  induction h with
  | number precedence value length => exact Or.inl ⟨value, length, rfl⟩
  | group precedence first last firstLength lastLength hinside _ =>
      exact Or.inr (Or.inl ⟨_, _, _, hinside.pieces_group first last firstLength lastLength,
        hinside⟩)
  | @between o entry left right length ho hplacement hentry hleft hright _ _ =>
      refine Or.inr (Or.inr ⟨o, ho, Nat.le_refl _,
        .between length ho hplacement hentry hleft hright, ?_⟩)
      apply Operator.cut?_ne_none_of_between hplacement
      rw [pieces_balanced_operator hleft.balanced]
      exact ⟨_, List.mem_append_right _ List.mem_cons_self, entry, rfl, hentry⟩
  | @before o entry operand length ho hplacement hentry hoperand _ =>
      refine Or.inr (Or.inr ⟨o, ho, Nat.le_refl _,
        .before length ho hplacement hentry hoperand, ?_⟩)
      have hcut := (@Operator.cut?_eq_ok_iff o (.operator entry length :: operand) _).mpr
        ⟨hdefects o ho, [], entry, pieces operand,
          ⟨⟨length, pieces_operator_cons entry length operand⟩, hentry⟩,
          by simp [Operator.Accepts, hplacement], rfl⟩
      simp [hcut]
  | @after o entry operand length ho hplacement hentry hoperand _ =>
      refine Or.inr (Or.inr ⟨o, ho, Nat.le_refl _,
        .after length ho hplacement hentry hoperand, ?_⟩)
      have hcut := (@Operator.cut?_eq_ok_iff o (operand ++ [.operator entry length]) _).mpr
        ⟨hdefects o ho, pieces operand, entry, [],
          ⟨⟨length, pieces_balanced_operator hoperand.balanced entry length []⟩, hentry⟩,
          by simp [Operator.Accepts, hplacement], rfl⟩
      simp [hcut]
  | tighter _ ih =>
      rcases ih with hnumber | hgroup | ⟨o, ho, hle, hsentence, hcut⟩
      · exact Or.inl hnumber
      · exact Or.inr (Or.inl hgroup)
      · exact Or.inr (Or.inr ⟨o, ho, by omega, hsentence, hcut⟩)

/-- A sentence with an operator outside brackets is neither a group nor a single
symbol. -/
theorem isCompound (h : catalog.Sentence precedence symbols) {o : Operator}
    (hoccurs : o.OccursIn (pieces symbols)) : IsCompound symbols := by
  obtain ⟨piece, member, entry, hentry, -⟩ := hoccurs
  constructor
  · cases hunwrap : unwrap? symbols with
    | none => rfl
    | some inside =>
        obtain ⟨first, last, hgroup⟩ := unwrap?_eq_some_iff.mp hunwrap
        rw [hgroup, List.mem_singleton] at member
        subst member
        cases hentry
  · apply h.length_ne_one_of_not_number
    rintro value length rfl
    simp only [pieces_singleton, List.mem_singleton] at member
    subst member
    cases hentry

theorem failsOnlyAtFactorial (hkinds : (catalog.operators.map Operator.operation).Nodup)
    (hdefects : ∀ o ∈ catalog.operators, o.defect? = none)
    (harity : ∀ o ∈ catalog.operators, o.arity = o.operation.operandCount)
    (h : catalog.Sentence precedence symbols) :
    FailsOnlyAtFactorial (catalog.evaluateFrom precedence symbols).result := by
  induction hsize : symbols.length using Nat.strongRecOn
    generalizing precedence symbols with
  | _ size ih =>
    subst hsize
    have hdrop := dropSentinels_of_not_mem h.not_sentinel.1 h.not_sentinel.2
    rcases h.cases_root hdefects with ⟨value, length, hnumber⟩ |
      ⟨first, inside, last, hgroup, hinside⟩ | ⟨root, hroot, hle, hsentence, hsome⟩
    · rw [← hdrop] at hnumber
      rw [result_of_single hnumber]
      exact Or.inl ⟨value, rfl⟩
    · have hshorter := length_lt_of_unwrap? (unwrap?_eq_some_iff.mpr ⟨first, last, hgroup⟩)
      rw [← hdrop] at hgroup
      rw [result_of_group hgroup]
      exact ih inside.length hshorter hinside rfl
    · have hcompound := h.isCompound (Operator.occursIn_of_cut?_ne_none hsome)
      rw [← hdrop] at hcompound
      rw [result_of_compound hcompound, hdrop]
      split
      · rename_i hnone
        exact absurd (cut?_eq_none_iff.mp hnone root hroot hle) hsome
      · rename_i error herror
        obtain ⟨o, ho, -, -, hdefect⟩ := exists_defect_of_cut? herror
        rw [hdefects o ho] at hdefect
        contradiction
      · rename_i cut hcut
        obtain ⟨ho, -, hdefect, -, before, after, hsplits, -, hleft, hright⟩ :=
          exists_splits_of_cut? hcut
        -- The cut is no tighter than the root, so its sides are sentences of its precedence.
        have hloose := hsentence.of_le (precedence_le_of_cut? hcut hroot hle hsome)
        obtain ⟨hafter, hbefore⟩ := hloose.of_splits hkinds ho rfl hsplits
        obtain ⟨hleftShorter, hrightShorter⟩ := length_lt_of_cut? hcut
        have hcount := harity cut.operator ho
        rcases Operator.defect?_eq_none_iff.mp hdefect with ⟨hone, hunary⟩ | ⟨htwo, hbetween⟩
        · have hvalue (value : Float) :
              FailsOnlyAtFactorial (cut.operator.apply (.unary value)) :=
            Operator.failsOnlyAtFactorial_unary (by omega) value
          unfold resultAround
          cases hplacement : cut.operator.placement with
          | before =>
              rw [← hright] at hafter
              exact (ih _ hrightShorter (hafter (by simp [hplacement])) rfl).bind hvalue
          | after =>
              rw [← hleft] at hbefore
              exact (ih _ hleftShorter (hbefore (by simp [hplacement])) rfl).bind hvalue
          | between => exact absurd hplacement hunary
        · unfold resultAround
          simp only [hbetween]
          rw [← hleft] at hbefore
          rw [← hright] at hafter
          refine (ih _ hleftShorter (hbefore (by simp [hbetween])) rfl).bind fun first => ?_
          refine (ih _ hrightShorter (hafter (by simp [hbetween])) rfl).bind fun second => ?_
          exact Operator.failsOnlyAtFactorial_binary (by omega) first second

end Sentence

theorem Evaluates.sentence {catalog : Catalog} {precedence : Nat} {symbols : List Symbol}
    {value : Float} (h : catalog.Evaluates precedence symbols value)
    (hstart : .start ∉ symbols) (hfinish : .finish ∉ symbols) :
    catalog.Sentence precedence symbols := by
  induction h with
  | number hsingle =>
      rw [dropSentinels_of_not_mem hstart hfinish] at hsingle
      rw [hsingle]
      exact .number _ _ _
  | group hgroup _ ih =>
      rw [dropSentinels_of_not_mem hstart hfinish] at hgroup
      obtain ⟨pair, firstLength, pair', lastLength, rfl, rfl, -, rfl⟩ :=
        eq_of_pieces_eq_group hgroup
      exact .group _ pair pair' firstLength lastLength
        (ih (by simp_all) (by simp_all))
  | before _ hcut hplacement _ _ ih =>
      rw [dropSentinels_of_not_mem hstart hfinish] at hcut
      obtain ⟨ho, hle, -⟩ := exists_splits_of_cut? hcut
      obtain ⟨⟨length, rfl⟩, hentry, hleft, -⟩ := slice_eq_of_cut? hcut
      rw [hleft hplacement, List.nil_append] at hstart hfinish ⊢
      exact (Sentence.before length ho hplacement hentry
        (ih (by simp_all) (by simp_all))).of_le hle
  | after _ hcut hplacement _ _ ih =>
      rw [dropSentinels_of_not_mem hstart hfinish] at hcut
      obtain ⟨ho, hle, -⟩ := exists_splits_of_cut? hcut
      obtain ⟨⟨length, rfl⟩, hentry, -, hright⟩ := slice_eq_of_cut? hcut
      rw [hright hplacement] at hstart hfinish ⊢
      exact (Sentence.after length ho hplacement hentry
        (ih (by simp_all) (by simp_all))).of_le hle
  | between _ hcut hplacement _ _ _ ihleft ihright =>
      rw [dropSentinels_of_not_mem hstart hfinish] at hcut
      obtain ⟨ho, hle, -⟩ := exists_splits_of_cut? hcut
      obtain ⟨⟨length, rfl⟩, hentry, -⟩ := slice_eq_of_cut? hcut
      exact (Sentence.between length ho hplacement hentry
        (ihleft (by simp_all) (by simp_all)) (ihright (by simp_all) (by simp_all))).of_le hle

/-- Without two operators of one operation, and with operators that can be
applied to the operands of their operation, evaluation accepts exactly the
sentences, whatever their precedences, placements and associativities: a
sentence can fail only at a factorial, and what has a value is a sentence. -/
theorem accepts_exactly_sentences (catalog : Catalog)
    (hkinds : (catalog.operators.map Operator.operation).Nodup) (hvalid : catalog.defect? = none)
    (harity : ∀ o ∈ catalog.operators, o.arity = o.operation.operandCount)
    (symbols : List Symbol) (hstart : .start ∉ symbols) (hfinish : .finish ∉ symbols)
    (precedence : Nat) :
    (catalog.Sentence precedence symbols →
      (∃ value, (catalog.evaluateFrom precedence symbols).result = .ok value) ∨
        (catalog.evaluateFrom precedence symbols).result = .error .negativeFactorial) ∧
    ∀ value, (catalog.evaluateFrom precedence symbols).result = .ok value →
      catalog.Sentence precedence symbols := by
  constructor
  · intro hsentence
    exact hsentence.failsOnlyAtFactorial hkinds (defect?_eq_none_iff.mp hvalid) harity
  · intro value hvalue
    exact (result_eq_ok_iff.mp hvalue).sentence hstart hfinish

/-- The standard operators in the opposite order, applied to `1 + - 2`, which is a
sentence with the value `-1`. -/
theorem accepts_exactly_sentences_reversed :
    let catalog : Catalog := ⟨standardOperators.reverse, standardBrackets⟩
    let symbols : List Symbol :=
      [.number 1 1, .operator .addition 1, .operator .negation 1, .number 2 1]
    (catalog.operators.map Operator.operation).Nodup ∧ catalog.defect? = none ∧
      (∀ o ∈ catalog.operators, o.arity = o.operation.operandCount) ∧
      .start ∉ symbols ∧ .finish ∉ symbols ∧
      catalog.Sentence 0 symbols ∧ (catalog.evaluateFrom 0 symbols).result = .ok (-1) ∧
      (catalog.Sentence 0 symbols →
        (∃ value, (catalog.evaluateFrom 0 symbols).result = .ok value) ∨
          (catalog.evaluateFrom 0 symbols).result = .error .negativeFactorial) ∧
      ∀ value, (catalog.evaluateFrom 0 symbols).result = .ok value →
        catalog.Sentence 0 symbols := by
  intro catalog symbols
  have hkinds : (catalog.operators.map Operator.operation).Nodup := by decide
  have hvalid : catalog.defect? = none := by decide
  have harity : ∀ o ∈ catalog.operators, o.arity = o.operation.operandCount := by decide
  have hstart : .start ∉ symbols := by simp [symbols]
  have hfinish : .finish ∉ symbols := by simp [symbols]
  have hexact := accepts_exactly_sentences catalog hkinds hvalid harity symbols hstart hfinish 0
  have hsign : catalog.cut? 0 [.operator .negation 1, .number 2 1] =
      some (.ok ⟨.negation, [], .negation, [.number 2 1]⟩) := by
    rw [cut?_eq_findSome?_ranked]
    rfl
  have hright : catalog.Evaluates 0 [.operator .negation 1, .number 2 1] (-2) :=
    .before ⟨rfl, by decide⟩ hsign rfl .literal rfl
  have hplus : catalog.cut? 0 (dropSentinels symbols) =
      some (.ok ⟨.addition, [.number 1 1], .addition, [.operator .negation 1, .number 2 1]⟩) := by
    rw [cut?_eq_findSome?_ranked]
    rfl
  have hsum : catalog.Evaluates 0 symbols (-1) :=
    .between ⟨rfl, by decide⟩ hplus rfl .literal hright
      (congrArg Except.ok (by decide +kernel : (1 + -2 : Float) = -1))
  have hvalue := result_eq_ok_iff.mpr hsum
  exact ⟨hkinds, hvalid, harity, hstart, hfinish, hexact.2 _ hvalue, hvalue, hexact⟩

end Catalog

end Calculator
