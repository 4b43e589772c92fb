import Calculator.Evaluation
import Calculator.Proofs.Reading

/-!
The value of a list of symbols without the events on the way to it: one equation
for each way in which a slice is understood, and the relation that holds between
a slice and its value.
-/

namespace Calculator

open Piece

namespace Reading

@[simp] theorem result_evaluate_group (slice : List Symbol) (inside : Reading) :
    (Reading.group slice inside).evaluate.result = inside.evaluate.result := rfl

@[simp] theorem result_evaluate_unary (cut : Cut) (operand : Reading) :
    (Reading.unary cut operand).evaluate.result =
      operand.evaluate.result >>= fun value => cut.operator.apply (.unary value) := by
  simp only [evaluate, Traced.result_bind]
  rfl

@[simp] theorem result_evaluate_binary (cut : Cut) (left right : Reading) :
    (Reading.binary cut left right).evaluate.result = (do
      let first ← left.evaluate.result
      let second ← right.evaluate.result
      cut.operator.apply (.binary first second)) := by
  simp only [evaluate, Traced.result_bind]
  rfl

end Reading

namespace Catalog

variable {catalog : Catalog} {loosest : Nat} {symbols : List Symbol}

/-- The value around a cut: the operands are evaluated from left to right with
the operators from the precedence of the cut on, then the operator is applied. -/
def resultAround (catalog : Catalog) (cut : Cut) : Except EvalError Float :=
  let operand := fun side => (catalog.evaluateFrom cut.operator.precedence side).result
  match cut.operator.placement with
  | .before => operand cut.right >>= fun value => cut.operator.apply (.unary value)
  | .after => operand cut.left >>= fun value => cut.operator.apply (.unary value)
  | .between => do
      let first ← operand cut.left
      let second ← operand cut.right
      cut.operator.apply (.binary first second)

theorem result_of_group {first last : Symbol} {inside : List Symbol}
    (h : pieces (dropSentinels symbols) = [.group first inside last]) :
    (catalog.evaluateFrom loosest symbols).result = (catalog.evaluateFrom 0 inside).result := by
  rw [evaluateFrom, reading_of_group h, Reading.result_evaluate_group]
  rfl

theorem result_of_single {symbol : Symbol} (h : dropSentinels symbols = [symbol]) :
    (catalog.evaluateFrom loosest symbols).result = symbol.reading.evaluate.result := by
  rw [evaluateFrom, reading_of_single h]

theorem result_evaluate_readingAround (cut : Cut) :
    (catalog.readingAround cut).evaluate.result = catalog.resultAround cut := by
  unfold readingAround resultAround evaluateFrom
  cases cut.operator.placement with
  | before | after => simp only [Reading.result_evaluate_unary]
  | between => simp only [Reading.result_evaluate_binary]

theorem result_of_compound (h : IsCompound (dropSentinels symbols)) :
    (catalog.evaluateFrom loosest symbols).result =
      match catalog.cut? loosest (dropSentinels symbols) with
      | none => .error (.unmatchedSymbols (spell (dropSentinels symbols)))
      | some (.error error) => .error error
      | some (.ok cut) => catalog.resultAround cut := by
  rw [evaluateFrom, reading_of_compound h]
  cases catalog.cut? loosest (dropSentinels symbols) with
  | none => rfl
  | some found =>
      cases found with
      | error error => rfl
      | ok cut => exact result_evaluate_readingAround cut

theorem result_of_cut? {piece : Piece} {before after : List Piece} {cut : Cut}
    (hdrop : dropSentinels symbols = symbols) (hparts : pieces symbols = before ++ piece :: after)
    (hside : before ≠ [] ∨ after ≠ []) (hcut : catalog.cut? loosest symbols = some (.ok cut)) :
    (catalog.evaluateFrom loosest symbols).result = catalog.resultAround cut := by
  have hcompound : IsCompound (dropSentinels symbols) := by
    rw [hdrop]
    exact isCompound_of_parts hparts hside
  rw [result_of_compound hcompound, hdrop, hcut]

theorem result_of_sentinels (hstart : .start ∉ symbols) (hfinish : .finish ∉ symbols) :
    (catalog.evaluateFrom loosest (.start :: symbols ++ [.finish])).result =
      (catalog.evaluateFrom loosest symbols).result := by
  rw [evaluateFrom, evaluateFrom, reading_congr]
  rw [dropSentinels_sentinels, dropSentinels_of_not_mem hstart hfinish]

theorem result_evaluate (catalog : Catalog) (symbols : List Symbol) :
    (catalog.evaluate symbols).result = (catalog.evaluateFrom 0 symbols).result := by
  unfold evaluate
  simp only [Traced.result_bind, Traced.result_emit]
  cases (catalog.evaluateFrom 0 symbols).result with
  | error error => rfl
  | ok value => rfl

/-- The relation between a slice, the loosest precedence with which it is
evaluated, and its value. -/
inductive Evaluates (catalog : Catalog) : Nat → List Symbol → Float → Prop where
  | number {loosest length : Nat} {symbols : List Symbol} {value : Float}
      (hsingle : dropSentinels symbols = [.number value length]) :
      Evaluates catalog loosest symbols value
  | group {loosest : Nat} {symbols inside : List Symbol} {first last : Symbol} {value : Float}
      (hgroup : pieces (dropSentinels symbols) = [.group first inside last])
      (hinside : Evaluates catalog 0 inside value) : Evaluates catalog loosest symbols value
  | before {loosest : Nat} {symbols : List Symbol} {cut : Cut} {operand value : Float}
      (hcompound : IsCompound (dropSentinels symbols))
      (hcut : catalog.cut? loosest (dropSentinels symbols) = some (.ok cut))
      (hplacement : cut.operator.placement = .before)
      (hoperand : Evaluates catalog cut.operator.precedence cut.right operand)
      (hvalue : cut.operator.apply (.unary operand) = .ok value) :
      Evaluates catalog loosest symbols value
  | after {loosest : Nat} {symbols : List Symbol} {cut : Cut} {operand value : Float}
      (hcompound : IsCompound (dropSentinels symbols))
      (hcut : catalog.cut? loosest (dropSentinels symbols) = some (.ok cut))
      (hplacement : cut.operator.placement = .after)
      (hoperand : Evaluates catalog cut.operator.precedence cut.left operand)
      (hvalue : cut.operator.apply (.unary operand) = .ok value) :
      Evaluates catalog loosest symbols value
  | between {loosest : Nat} {symbols : List Symbol} {cut : Cut} {first second value : Float}
      (hcompound : IsCompound (dropSentinels symbols))
      (hcut : catalog.cut? loosest (dropSentinels symbols) = some (.ok cut))
      (hplacement : cut.operator.placement = .between)
      (hleft : Evaluates catalog cut.operator.precedence cut.left first)
      (hright : Evaluates catalog cut.operator.precedence cut.right second)
      (hvalue : cut.operator.apply (.binary first second) = .ok value) :
      Evaluates catalog loosest symbols value

theorem Evaluates.literal {value : Float} {length : Nat} :
    catalog.Evaluates loosest [.number value length] value := .number rfl

/-- Evaluation succeeds exactly with the values of the relation. -/
theorem result_eq_ok_iff {value : Float} :
    (catalog.evaluateFrom loosest symbols).result = .ok value ↔
      catalog.Evaluates loosest symbols value := by
  constructor
  · intro h
    induction loosest, symbols using reading_induction generalizing value with
    | group loosest symbols first last inside hgroup ih =>
        rw [result_of_group hgroup] at h
        exact .group hgroup (ih h)
    | single loosest symbols symbol hsingle =>
        rw [result_of_single hsingle] at h
        cases symbol with
        | number found length =>
            cases h
            exact .number hsingle
        | _ => cases h
    | unresolved loosest symbols hcompound hcut =>
        rw [result_of_compound hcompound, hcut] at h
        contradiction
    | invalid loosest symbols error hcompound hcut =>
        rw [result_of_compound hcompound, hcut] at h
        contradiction
    | cut loosest symbols cut hcompound hcut ihleft ihright =>
        rw [result_of_compound hcompound, hcut] at h
        simp only [resultAround] at h
        cases hplacement : cut.operator.placement with
        | before =>
            simp only [hplacement] at h
            obtain ⟨operand, hoperand, hvalue⟩ := exists_of_bind_eq_ok h
            exact .before hcompound hcut hplacement (ihright hoperand) hvalue
        | after =>
            simp only [hplacement] at h
            obtain ⟨operand, hoperand, hvalue⟩ := exists_of_bind_eq_ok h
            exact .after hcompound hcut hplacement (ihleft hoperand) hvalue
        | between =>
            simp only [hplacement] at h
            obtain ⟨first, hfirst, hrest⟩ := exists_of_bind_eq_ok h
            obtain ⟨second, hsecond, hvalue⟩ := exists_of_bind_eq_ok hrest
            exact .between hcompound hcut hplacement (ihleft hfirst) (ihright hsecond) hvalue
  · intro h
    induction h with
    | number hsingle => rw [result_of_single hsingle]; rfl
    | group hgroup _ ih => rw [result_of_group hgroup, ih]
    | before hcompound hcut hplacement _ hvalue ih
    | after hcompound hcut hplacement _ hvalue ih =>
        rw [result_of_compound hcompound, hcut]
        simp only [resultAround, hplacement, ih]
        exact hvalue
    | between hcompound hcut hplacement _ _ hvalue ihleft ihright =>
        rw [result_of_compound hcompound, hcut]
        simp only [resultAround, hplacement, ihleft, ihright]
        exact hvalue

theorem Evaluates.balanced {value : Float} (h : catalog.Evaluates loosest symbols value) :
    Balanced .opening symbols := by
  induction h with
  | number hsingle =>
      apply balanced_of_dropSentinels
      rw [hsingle]
      exact .plain rfl .nil
  | group hgroup _ ih =>
      apply balanced_of_dropSentinels
      obtain ⟨pair, firstLength, pair', lastLength, rfl, rfl, -, hslice⟩ :=
        eq_of_pieces_eq_group hgroup
      rw [hslice]
      exact Balanced.wrap rfl ih rfl
  | before _ hcut hplacement _ _ ih =>
      apply balanced_of_dropSentinels
      obtain ⟨⟨length, hslice⟩, -, hleft, -⟩ := slice_eq_of_cut? hcut
      rw [hslice, hleft hplacement]
      exact .plain rfl ih
  | after _ hcut hplacement _ _ ih =>
      apply balanced_of_dropSentinels
      obtain ⟨⟨length, hslice⟩, -, -, hright⟩ := slice_eq_of_cut? hcut
      rw [hslice, hright hplacement]
      exact ih.append (.plain rfl .nil)
  | between _ hcut _ _ _ _ ihleft ihright =>
      apply balanced_of_dropSentinels
      obtain ⟨⟨length, hslice⟩, -⟩ := slice_eq_of_cut? hcut
      rw [hslice]
      exact ihleft.append (.plain rfl ihright)

end Catalog

end Calculator
