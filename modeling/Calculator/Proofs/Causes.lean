import Calculator.Proofs.Failures

/-!
What an error of an evaluation tells about the input. Whatever the catalog and
the list of symbols are, the symbol or the slice that an error shows is part of
the list, and the operator that it names is an entry of the catalog whose
operation occurs in the list and that is at fault as the error says.
-/

namespace Calculator

open Piece

/-- An operator that cannot be applied is named by its defect, together with the
field that is at fault. -/
theorem Operator.eq_of_defect? {o : Operator} {error : EvalError} (h : o.defect? = some error) :
    error = .invalidPlacement o.name o.placement ∨ error = .invalidArity o.name o.arity := by
  unfold defect? at h
  split at h
  · contradiction
  · contradiction
  · contradiction
  · exact Or.inl (Option.some.inj h).symm
  · exact Or.inl (Option.some.inj h).symm
  · exact Or.inr (Option.some.inj h).symm

/-- Only a factorial of one operand has no value. -/
theorem Operator.operandCount_of_negativeFactorial {o : Operator} {operands : Operands}
    (h : o.apply operands = .error .negativeFactorial) :
    o.operation = .factorial ∧ operands.count = 1 := by
  rcases apply_eq_error h with ⟨hother, -⟩ | ⟨-, hfactorial⟩
  · contradiction
  · refine ⟨hfactorial, ?_⟩
    cases operands with
    | unary value => rfl
    | binary left right => simp [apply, hfactorial] at h

/-- Whether a symbol with the operation of the operator is in the list, inside or
outside brackets. -/
def Operator.UsedIn (o : Operator) (symbols : List Symbol) : Prop :=
  ∃ entry length, .operator entry length ∈ symbols ∧ entry.operation = o.operation

theorem Operator.OccursIn.usedIn {o : Operator} {slice : List Symbol}
    (h : o.OccursIn (pieces slice)) : o.UsedIn slice := by
  obtain ⟨piece, member, entry, hentry, hoperation⟩ := h
  obtain ⟨length, rfl⟩ := eq_lone_of_operator? hentry
  refine ⟨entry, length, ?_, hoperation⟩
  rw [← join_pieces slice]
  exact List.mem_flatMap.mpr ⟨_, member, List.mem_singleton_self _⟩

theorem Operator.UsedIn.of_isInfix {o : Operator} {slice symbols : List Symbol}
    (h : o.UsedIn slice) (hslice : slice <:+: symbols) : o.UsedIn symbols := by
  obtain ⟨entry, length, member, hoperation⟩ := h
  exact ⟨entry, length, hslice.subset member, hoperation⟩

namespace Catalog

/-- What an error of an evaluation says about the catalog and the list. -/
def Explains (catalog : Catalog) (symbols : List Symbol) : EvalError → Prop
  | .unexpectedSymbol text =>
      ∃ symbol ∈ symbols, (∀ value length, symbol ≠ .number value length) ∧ text = symbol.text
  | .unmatchedSymbols text => ∃ slice, slice <:+: symbols ∧ slice.length ≠ 1 ∧ text = spell slice
  | .invalidPlacement name placement =>
      ∃ o ∈ catalog.operators, o.UsedIn symbols ∧ o.name = name ∧
        o.defect? = some (.invalidPlacement name placement)
  | .invalidArity name arity =>
      ∃ o ∈ catalog.operators, o.UsedIn symbols ∧ o.name = name ∧
        (o.defect? = some (.invalidArity name arity) ∨
          o.defect? = none ∧ o.arity = arity ∧ o.arity ≠ o.operation.operandCount)
  | .negativeFactorial =>
      ∃ o ∈ catalog.operators, o.UsedIn symbols ∧ o.operation = .factorial ∧ o.arity = 1 ∧
        o.placement ≠ .between

variable {catalog : Catalog} {loosest : Nat} {slice : List Symbol} {error : EvalError}

theorem explains_of_defect? {o : Operator} (ho : o ∈ catalog.operators) (hused : o.UsedIn slice)
    (h : o.defect? = some error) : catalog.Explains slice error := by
  rcases Operator.eq_of_defect? h with rfl | rfl
  · exact ⟨o, ho, hused, rfl, h⟩
  · exact ⟨o, ho, hused, rfl, Or.inl h⟩

/-- An operator that passes the check of its shape can still fail where it is
applied. -/
theorem explains_of_apply {cut : Cut} {operands : Operands}
    (hcut : catalog.cut? loosest slice = some (.ok cut))
    (hcount : operands.count = cut.operator.arity)
    (happly : cut.operator.apply operands = .error error) : catalog.Explains slice error := by
  obtain ⟨ho, -, hdefect, -, before, after, hsplits, -⟩ := exists_splits_of_cut? hcut
  have hused := hsplits.occursIn.usedIn
  rcases Operator.apply_eq_error happly with ⟨rfl, hother⟩ | ⟨rfl, -⟩
  · exact ⟨cut.operator, ho, hused, rfl, Or.inr ⟨hdefect, hcount.symm, hcount ▸ hother⟩⟩
  · obtain ⟨hfactorial, hone⟩ := Operator.operandCount_of_negativeFactorial happly
    have hshape := Operator.defect?_eq_none_iff.mp hdefect
    exact ⟨cut.operator, ho, hused, hfactorial, by omega, fun hbetween => by
      simp only [hbetween, ne_eq, not_true_eq_false, and_false, false_or] at hshape
      omega⟩

theorem FailsAt.explains (h : catalog.FailsAt loosest slice error) :
    catalog.Explains slice error := by
  cases h with
  | @symbol symbol hsingle hnumber => exact ⟨symbol, by simp [hsingle], hnumber, rfl⟩
  | unresolved hcompound hcut => exact ⟨slice, List.infix_rfl, hcompound.2, rfl⟩
  | invalid hcut =>
      obtain ⟨o, ho, -, hoccurs, hdefect⟩ := exists_defect_of_cut? hcut
      exact explains_of_defect? ho hoccurs.usedIn hdefect
  | apply hcut hcount happly => exact explains_of_apply hcut hcount happly

/-- What an error says of a slice holds of every list with this slice. -/
theorem Explains.of_isInfix {symbols : List Symbol} (h : catalog.Explains slice error)
    (hslice : slice <:+: symbols) : catalog.Explains symbols error := by
  cases error with
  | unexpectedSymbol text =>
      obtain ⟨symbol, member, hrest⟩ := h
      exact ⟨symbol, hslice.subset member, hrest⟩
  | unmatchedSymbols text =>
      obtain ⟨part, hpart, hrest⟩ := h
      exact ⟨part, hpart.trans hslice, hrest⟩
  | invalidPlacement name placement | invalidArity name arity | negativeFactorial =>
      obtain ⟨o, ho, hused, hrest⟩ := h
      exact ⟨o, ho, hused.of_isInfix hslice, hrest⟩

/-- Every error of an evaluation has its cause in the input, from whatever depth
it comes. -/
theorem input_explains_error (catalog : Catalog) (loosest : Nat) (symbols : List Symbol)
    (error : EvalError) (h : (catalog.evaluateFrom loosest symbols).result = .error error) :
    catalog.Explains symbols error := by
  obtain ⟨start, slice, hslice, hfails⟩ := exists_failsAt h
  exact hfails.explains.of_isInfix hslice

/-- In `-(3` the error shows the slice that is left behind the negation. -/
theorem input_explains_error_unclosed :
    let pair := standardBrackets[0]
    let symbols : List Symbol :=
      [.operator .negation 1, .bracket pair .opening 1, .number 3 1]
    (standard.evaluateFrom 0 symbols).result = .error (.unmatchedSymbols "(3") ∧
      standard.Explains symbols (.unmatchedSymbols "(3") := by
  intro pair symbols
  let operand : List Symbol := [.bracket pair .opening 1, .number 3 1]
  have hcompound : IsCompound (dropSentinels symbols) := ⟨rfl, by decide⟩
  have hcut : standard.cut? 0 (dropSentinels symbols) =
      some (.ok ⟨.negation, [], .negation, operand⟩) := by
    rw [cut?_eq_findSome?_ranked]
    rfl
  have hinside : IsCompound (dropSentinels operand) := ⟨rfl, by decide⟩
  have hnone : standard.cut? 0 (dropSentinels operand) = none := by
    rw [cut?_eq_findSome?_ranked]
    rfl
  have hspell : spell (dropSentinels operand) = "(3" := by decide +kernel
  have hoperand : (standard.evaluateFrom 0 operand).result = .error (.unmatchedSymbols "(3") := by
    rw [result_of_compound hinside, hnone, hspell]
  have hfails : (standard.evaluateFrom 0 symbols).result = .error (.unmatchedSymbols "(3") := by
    rw [result_of_compound hcompound, hcut]
    simp only [resultAround, Operator.negation, hoperand]
    rfl
  exact ⟨hfails, input_explains_error standard 0 symbols _ hfails⟩

end Catalog

end Calculator
