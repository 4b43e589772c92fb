import Calculator.Catalog.Standard
import Calculator.Proofs.Evaluation
import Calculator.Proofs.Ranking

/-!
Evaluation sees only the order of the tiers. Two catalogs that rank their
operators alike cut every slice at the same place and go on from corresponding
precedences, so every list of symbols has the same value or the same error in
both. Tiers may be renumbered, with gaps of any size, and operators of different
tiers may be declared in any order.
-/

namespace Calculator

open Piece

def Cut.renumbered (rank : Nat → Nat) (cut : Cut) : Cut :=
  { cut with operator := cut.operator.renumbered rank }

/-- Where an operator cuts a slice does not depend on its precedence. -/
theorem Operator.cut?_renumbered (o : Operator) (rank : Nat → Nat) (slice : List Symbol) :
    (o.renumbered rank).cut? slice = (o.cut? slice).map (Except.map (Cut.renumbered rank)) := by
  have hoccurrences : (o.renumbered rank).occurrences slice = o.occurrences slice := rfl
  have hdefect : (o.renumbered rank).defect? = o.defect? := rfl
  unfold cut?
  rw [hoccurrences, hdefect]
  cases o.occurrences slice with
  | nil => rfl
  | cons first rest =>
      cases o.defect? with
      | some error => rfl
      | none =>
          dsimp only
          rw [Option.map_map]
          rfl

namespace Catalog

variable {first second : Catalog} {rank : Nat → Nat} {loosest loosest' : Nat}
  {symbols : List Symbol}

namespace Renumbers

theorem cut?_eq (h : Renumbers rank first second)
    (hloosest : ∀ o ∈ first.operators, loosest ≤ o.precedence ↔ loosest' ≤ rank o.precedence)
    (slice : List Symbol) :
    second.cut? loosest' slice =
      (first.cut? loosest slice).map (Except.map (Cut.renumbered rank)) := by
  unfold cut?
  rw [h.ladder_eq hloosest, List.findSome?_map, List.map_findSome?]
  congr 1
  funext o
  exact o.cut?_renumbered rank slice

theorem resultAround_eq {cut : Cut}
    (hleft : (first.evaluateFrom cut.operator.precedence cut.left).result =
      (second.evaluateFrom (rank cut.operator.precedence) cut.left).result)
    (hright : (first.evaluateFrom cut.operator.precedence cut.right).result =
      (second.evaluateFrom (rank cut.operator.precedence) cut.right).result) :
    first.resultAround cut = second.resultAround (cut.renumbered rank) := by
  simp only [resultAround, hleft, hright]
  rfl

/-- The precedences from which two runs read a slice correspond if they keep the
same operators, which holds at the start, inside brackets and around every cut. -/
theorem result_evaluateFrom (h : Renumbers rank first second)
    (hloosest : ∀ o ∈ first.operators, loosest ≤ o.precedence ↔ loosest' ≤ rank o.precedence) :
    (first.evaluateFrom loosest symbols).result =
      (second.evaluateFrom loosest' symbols).result := by
  induction loosest, symbols using @reading_induction first generalizing loosest' with
  | group loosest symbols opening closing inside hgroup ih =>
      rw [result_of_group hgroup, result_of_group hgroup]
      exact ih (by simp)
  | single loosest symbols symbol hsingle =>
      rw [result_of_single hsingle, result_of_single hsingle]
  | unresolved loosest symbols hcompound hnone =>
      rw [result_of_compound hcompound, result_of_compound hcompound, h.cut?_eq hloosest, hnone]
      rfl
  | invalid loosest symbols error hcompound herror =>
      rw [result_of_compound hcompound, result_of_compound hcompound, h.cut?_eq hloosest, herror]
      rfl
  | cut loosest symbols cut hcompound hcut ihleft ihright =>
      have hsides := h.le_iff cut.operator (exists_splits_of_cut? hcut).1
      rw [result_of_compound hcompound, result_of_compound hcompound, h.cut?_eq hloosest, hcut]
      exact resultAround_eq (ihleft hsides) (ihright hsides)

end Renumbers

/-- Evaluation depends only on the relative order of the precedences. Catalogs
that rank their operators alike give every list of symbols the same result. Such
catalogs come from a strictly increasing renumbering of the tiers, and from
declaring operators of different tiers in another order. -/
theorem evaluate_depends_on_ranking (first : Catalog) :
    (∀ second, first.SameRanking second → ∀ symbols,
      (first.evaluate symbols).result = (second.evaluate symbols).result) ∧
    (∀ (rank : Nat → Nat) (second : Catalog), (∀ low high, low < high → rank low < rank high) →
      second.operators = first.operators.map (Operator.renumbered rank) →
        first.SameRanking second) ∧
    ∀ second : Catalog, (∀ precedence, first.tier precedence = second.tier precedence) →
      first.SameRanking second := by
  refine ⟨fun second h symbols => ?_, fun rank second hrank h => ?_, fun second h => ?_⟩
  · rw [result_evaluate, result_evaluate]
    exact h.renumbers.result_evaluateFrom (by simp)
  · exact (Renumbers.of_strictMono hrank h).sameRanking
  · exact .of_tiers h

/-- The standard operators with gaps between their tiers, and with the tighter
ones declared first. In both catalogs `2 + 3 * 4` is `14`. -/
theorem evaluate_depends_on_ranking_standard :
    let spread : Catalog :=
      ⟨standardOperators.map (Operator.renumbered fun precedence => 10 * precedence + 3),
        standardBrackets⟩
    let regrouped : Catalog :=
      ⟨[.factorial, .exponentiation, .multiplication, .division, .addition, .subtraction,
        .negation], standardBrackets⟩
    let sum : List Symbol :=
      [.number 2 1, .operator .addition 1, .number 3 1, .operator .multiplication 1, .number 4 1]
    standard.SameRanking spread ∧ standard.SameRanking regrouped ∧
      (spread.evaluate sum).result = .ok 14 ∧ (regrouped.evaluate sum).result = .ok 14 ∧
      ∀ symbols, (standard.evaluate symbols).result = (spread.evaluate symbols).result ∧
        (standard.evaluate symbols).result = (regrouped.evaluate symbols).result := by
  intro spread regrouped sum
  obtain ⟨hsame, hincreasing, htiers⟩ := evaluate_depends_on_ranking standard
  have hspread : standard.SameRanking spread :=
    hincreasing (fun precedence => 10 * precedence + 3) spread (fun low high hlt => by omega) rfl
  have hregrouped : standard.SameRanking regrouped := by
    refine htiers regrouped fun precedence => ?_
    match precedence with
    | 0 | 1 | 2 | 3 => rfl
    | _ + 4 => rfl
  let product : List Symbol := [.number 3 1, .operator .multiplication 1, .number 4 1]
  have htimes : standard.cut? 0 product =
      some (.ok ⟨.multiplication, [.number 3 1], .multiplication, [.number 4 1]⟩) := by
    rw [cut?_eq_findSome?_ranked]
    rfl
  have hproduct : standard.Evaluates 0 product 12 :=
    .between ⟨rfl, by decide⟩ htimes rfl .literal .literal
      (congrArg Except.ok (by decide +kernel : (3 * 4 : Float) = 12))
  have hplus : standard.cut? 0 (dropSentinels sum) =
      some (.ok ⟨.addition, [.number 2 1], .addition, product⟩) := by
    rw [cut?_eq_findSome?_ranked]
    rfl
  have hsum : standard.Evaluates 0 sum 14 :=
    .between ⟨rfl, by decide⟩ hplus rfl .literal hproduct
      (congrArg Except.ok (by decide +kernel : (2 + 12 : Float) = 14))
  have hvalue : (standard.evaluate sum).result = .ok 14 := by
    rw [result_evaluate, result_eq_ok_iff.mpr hsum]
  exact ⟨hspread, hregrouped, hsame spread hspread sum ▸ hvalue,
    hsame regrouped hregrouped sum ▸ hvalue,
    fun symbols => ⟨hsame spread hspread symbols, hsame regrouped hregrouped symbols⟩⟩

end Catalog

end Calculator
