import Calculator.Proofs.Events
import Calculator.Proofs.Sentence

/-!
Where an evaluation fails. Every error of a run is raised at one slice of the
list: by a symbol on its own, by a slice without a cut, by an operator that
cannot be applied, or by the application of one. Checking a catalog beforehand
rules the third of these out and leaves the last one.
-/

namespace Calculator

open Piece

/-- An application fails if the operation takes another number of operands, or
at a factorial. -/
theorem Operator.apply_eq_error {o : Operator} {operands : Operands} {error : EvalError}
    (h : o.apply operands = .error error) :
    (error = .invalidArity o.name operands.count ∧
        operands.count ≠ o.operation.operandCount) ∨
      (error = .negativeFactorial ∧ o.operation = .factorial) := by
  cases operands with
  | unary value =>
      unfold apply at h
      cases hoperation : o.operation with
      | negate =>
          simp only [hoperation] at h
          contradiction
      | factorial =>
          simp only [hoperation] at h
          rcases failsOnlyAtFactorial_factorial value with ⟨result, hresult⟩ | hfails
          · rw [hresult] at h
            contradiction
          · rw [hfails] at h
            cases h
            exact Or.inr ⟨rfl, rfl⟩
      | _ =>
          simp only [hoperation] at h
          cases h
          exact Or.inl ⟨rfl, by simp [Operands.count, Operation.operandCount]⟩
  | binary left right =>
      unfold apply at h
      cases hoperation : o.operation with
      | negate | factorial =>
          simp only [hoperation] at h
          cases h
          exact Or.inl ⟨rfl, by simp [Operands.count, Operation.operandCount]⟩
      | _ =>
          simp only [hoperation] at h
          contradiction

/-- What fails in two steps fails in the first one or in the second one. -/
theorem error_cases_of_bind {ε α β : Type} {first : Except ε α} {next : α → Except ε β}
    {error : ε} (h : first >>= next = .error error) :
    first = .error error ∨ ∃ value, next value = .error error := by
  cases first with
  | error found =>
      cases h
      exact Or.inl rfl
  | ok value => exact Or.inr ⟨value, h⟩

namespace Catalog

variable {catalog : Catalog} {loosest : Nat} {symbols : List Symbol}

/-- What makes the evaluation of a slice fail at the slice itself, and not
within one of its parts. -/
inductive FailsAt (catalog : Catalog) (loosest : Nat) (slice : List Symbol) :
    EvalError → Prop where
  | symbol {symbol : Symbol} (hsingle : slice = [symbol])
      (hnumber : ∀ value length, symbol ≠ .number value length) :
      FailsAt catalog loosest slice (.unexpectedSymbol symbol.text)
  | unresolved (hcompound : IsCompound slice) (hcut : catalog.cut? loosest slice = none) :
      FailsAt catalog loosest slice (.unmatchedSymbols (spell slice))
  | invalid {error : EvalError} (hcut : catalog.cut? loosest slice = some (.error error)) :
      FailsAt catalog loosest slice error
  | apply {cut : Cut} {operands : Operands} {error : EvalError}
      (hcut : catalog.cut? loosest slice = some (.ok cut))
      (hcount : operands.count = cut.operator.arity)
      (happly : cut.operator.apply operands = .error error) :
      FailsAt catalog loosest slice error

/-- A failure around a cut is that of an operand, or that of the application. -/
theorem fails_around {slice : List Symbol} {cut : Cut} {error : EvalError}
    (hcut : catalog.cut? loosest slice = some (.ok cut))
    (h : catalog.resultAround cut = .error error) :
    (catalog.evaluateFrom cut.operator.precedence cut.left).result = .error error ∨
      (catalog.evaluateFrom cut.operator.precedence cut.right).result = .error error ∨
      catalog.FailsAt loosest slice error := by
  have hshape := Operator.defect?_eq_none_iff.mp (exists_splits_of_cut? hcut).2.2.1
  simp only [resultAround] at h
  cases hplacement : cut.operator.placement with
  | before | after =>
      have hone : cut.operator.arity = 1 := by simpa [hplacement] using hshape
      simp only [hplacement] at h
      rcases error_cases_of_bind h with hoperand | ⟨value, happly⟩
      · simp [hoperand]
      · exact Or.inr (Or.inr (@FailsAt.apply _ _ _ _ (.unary value) _ hcut hone.symm happly))
  | between =>
      have htwo : cut.operator.arity = 2 := by simpa [hplacement] using hshape
      simp only [hplacement] at h
      rcases error_cases_of_bind h with hleft | ⟨first, hrest⟩
      · exact Or.inl hleft
      · rcases error_cases_of_bind hrest with hright | ⟨second, happly⟩
        · exact Or.inr (Or.inl hright)
        · exact Or.inr (Or.inr
            (@FailsAt.apply _ _ _ _ (.binary first second) _ hcut htwo.symm happly))

/-- Every failure of a run is raised at a slice of the list. -/
theorem exists_failsAt {error : EvalError}
    (h : (catalog.evaluateFrom loosest symbols).result = .error error) :
    ∃ start slice, slice <:+: symbols ∧ catalog.FailsAt start slice error := by
  induction loosest, symbols using @reading_induction catalog with
  | group loosest symbols first last inside hgroup ih =>
      rw [result_of_group hgroup] at h
      obtain ⟨start, slice, hslice, hfails⟩ := ih h
      exact ⟨start, slice,
        hslice.trans ((isInfix_inside hgroup).trans (isInfix_dropSentinels symbols)), hfails⟩
  | single loosest symbols symbol hsingle =>
      rw [result_of_single hsingle] at h
      have hnumber : ∀ value length, symbol ≠ .number value length := by
        rintro value length rfl
        cases h
      have herror : error = .unexpectedSymbol symbol.text := by
        cases symbol with
        | number value length => exact absurd rfl (hnumber value length)
        | _ => exact (Except.error.inj h).symm
      rw [herror]
      exact ⟨loosest, _, isInfix_dropSentinels symbols, .symbol hsingle hnumber⟩
  | unresolved loosest symbols hcompound hnone =>
      rw [result_of_compound hcompound, hnone] at h
      cases h
      exact ⟨loosest, _, isInfix_dropSentinels symbols, .unresolved hcompound hnone⟩
  | invalid loosest symbols found hcompound hinvalid =>
      rw [result_of_compound hcompound, hinvalid] at h
      cases h
      exact ⟨loosest, _, isInfix_dropSentinels symbols, .invalid hinvalid⟩
  | cut loosest symbols cut hcompound hcut ihleft ihright =>
      rw [result_of_compound hcompound, hcut] at h
      obtain ⟨hleft, hright⟩ := isInfix_sides hcut
      have hwhole := isInfix_dropSentinels symbols
      rcases fails_around hcut h with inLeft | inRight | hfails
      · obtain ⟨start, slice, hslice, hfails⟩ := ihleft inLeft
        exact ⟨start, slice, hslice.trans (hleft.trans hwhole), hfails⟩
      · obtain ⟨start, slice, hslice, hfails⟩ := ihright inRight
        exact ⟨start, slice, hslice.trans (hright.trans hwhole), hfails⟩
      · exact ⟨loosest, _, hwhole, hfails⟩

/-- Without a defect in the catalog no operator fails before it is applied. -/
theorem cut?_ne_error_of_defect? (h : catalog.defect? = none) (slice : List Symbol)
    (error : EvalError) : catalog.cut? loosest slice ≠ some (.error error) := by
  intro hcut
  obtain ⟨o, ho, -, -, hdefect⟩ := exists_defect_of_cut? hcut
  rw [defect?_eq_none_iff.mp h o ho] at hdefect
  contradiction

/-- In a catalog without a defect no evaluation fails because of a placement.
One that fails because of an arity names an operator that is declared with this
arity although its operation takes another number of operands. -/
theorem errors_of_defect?_eq_none (catalog : Catalog) (hvalid : catalog.defect? = none)
    (loosest : Nat) (symbols : List Symbol) (error : EvalError)
    (hfails : (catalog.evaluateFrom loosest symbols).result = .error error ∨
      (catalog.evaluate symbols).result = .error error) :
    (∀ name placement, error ≠ .invalidPlacement name placement) ∧
      ∀ name arity, error = .invalidArity name arity →
        ∃ o ∈ catalog.operators, o.name = name ∧ o.arity = arity ∧
          o.arity ≠ o.operation.operandCount := by
  obtain ⟨first, hfirst⟩ :
      ∃ first, (catalog.evaluateFrom first symbols).result = .error error := by
    rcases hfails with h | h
    · exact ⟨loosest, h⟩
    · exact ⟨0, result_evaluate catalog symbols ▸ h⟩
  obtain ⟨start, slice, -, hfailsAt⟩ := exists_failsAt hfirst
  cases hfailsAt with
  | symbol => simp
  | unresolved => simp
  | invalid hcut => exact absurd hcut (cut?_ne_error_of_defect? hvalid slice error)
  | @apply cut operands _ hcut hcount happly =>
      rcases Operator.apply_eq_error happly with ⟨rfl, hother⟩ | ⟨rfl, -⟩
      · refine ⟨by simp, ?_⟩
        rintro name arity hsame
        cases hsame
        exact ⟨cut.operator, (exists_splits_of_cut? hcut).1, rfl, hcount.symm, hcount ▸ hother⟩
      · simp

def unaryAddition : Operator :=
  { Operator.addition with arity := 1, placement := .before, associativity := .none }

theorem result_unaryAddition :
    ((⟨[unaryAddition], []⟩ : Catalog).evaluateFrom 0
      [.operator unaryAddition 1, .number 1 1]).result = .error (.invalidArity "add" 1) := by
  let catalog : Catalog := ⟨[unaryAddition], []⟩
  let symbols : List Symbol := [.operator unaryAddition 1, .number 1 1]
  have hcompound : IsCompound (dropSentinels symbols) := ⟨rfl, by decide⟩
  have hcut : catalog.cut? 0 (dropSentinels symbols) =
      some (.ok ⟨unaryAddition, [], unaryAddition, [.number 1 1]⟩) := by
    rw [cut?_eq_findSome?_ranked]
    rfl
  have hone : (catalog.evaluateFrom 0 [.number 1 1]).result = .ok 1 :=
    result_eq_ok_iff.mpr (.number rfl)
  have haround : (catalog.evaluateFrom 0 symbols).result =
      (catalog.evaluateFrom 0 [.number 1 1]).result >>= fun value =>
        unaryAddition.apply (.unary value) := by
    rw [result_of_compound hcompound, hcut]
    rfl
  rw [haround, hone]
  rfl

/-- The catalog of unary addition has no defect, yet the evaluation of `+1`
fails because of the arity. -/
theorem errors_of_defect?_eq_none_unaryAddition :
    let catalog : Catalog := ⟨[unaryAddition], []⟩
    let symbols : List Symbol := [.operator unaryAddition 1, .number 1 1]
    let error : EvalError := .invalidArity "add" 1
    catalog.defect? = none ∧
      ((catalog.evaluateFrom 0 symbols).result = .error error ∨
        (catalog.evaluate symbols).result = .error error) ∧
      (∀ name placement, error ≠ .invalidPlacement name placement) ∧
      ∀ name arity, error = .invalidArity name arity →
        ∃ o ∈ catalog.operators, o.name = name ∧ o.arity = arity ∧
          o.arity ≠ o.operation.operandCount := by
  intro catalog symbols error
  exact ⟨rfl, Or.inl result_unaryAddition,
    errors_of_defect?_eq_none catalog rfl 0 symbols error (Or.inl result_unaryAddition)⟩

/-- That a catalog has no defect does not rule out that an arity fails. -/
theorem not_forall_ne_invalidArity :
    ¬ ∀ catalog : Catalog, catalog.defect? = none → ∀ (loosest : Nat) (symbols : List Symbol)
      (error : EvalError), (catalog.evaluateFrom loosest symbols).result = .error error →
        (∀ name placement, error ≠ .invalidPlacement name placement) ∧
          ∀ name arity, error ≠ .invalidArity name arity := by
  intro hall
  exact (hall _ rfl 0 _ _ result_unaryAddition).2 "add" 1 rfl

end Catalog

end Calculator
