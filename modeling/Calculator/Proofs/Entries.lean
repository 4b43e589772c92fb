import Calculator.Proofs.Events
import Calculator.Proofs.Lexing
import Calculator.Proofs.Sentence

/-!
Which catalog entry a split applies. Operators are looked for by what they
compute, so the entry that a symbol was read as is the one that is applied only
if no other entry of the catalog computes the same.
-/

namespace Calculator

namespace Catalog

/-- In a text that was read with a catalog, a split applies an entry of the
catalog with the operation of the symbol at the split. It is found in the
direction of that entry, and its operands are evaluated from the precedence of
that entry on. It is the entry of the symbol, if no other one has its operation. -/
theorem split_applies_entry (catalog : Catalog) (source : String) (symbols : List Symbol)
    (hsymbols : (catalog.tokenize source).result = .ok symbols) (cut : Cut)
    (hsplit : .split cut ∈ (catalog.evaluate symbols).events) :
    cut.pivot ∈ catalog.operators ∧ cut.operator ∈ catalog.operators ∧
      cut.operator.operation = cut.pivot.operation ∧
      (∃ length, cut.operator.cut? (cut.left ++ .operator cut.pivot length :: cut.right) =
        some (.ok cut)) ∧
      catalog.IsOperand cut.operator.precedence cut.left ∧
      catalog.IsOperand cut.operator.precedence cut.right ∧
      ((∀ o ∈ catalog.operators, o.operation = cut.pivot.operation → o = cut.pivot) →
        cut.operator = cut.pivot) := by
  obtain ⟨start, slice, hslice, hcut, hleft, hright⟩ :=
    exists_cut_of_split_mem (split_mem_evaluate_iff.mp hsplit)
  obtain ⟨⟨length, hparts⟩, hoperation, -⟩ := slice_eq_of_cut? hcut
  obtain ⟨earlier, o, later, hladder, hfound, -⟩ := cut?_eq_some_iff.mp hcut
  have hoperator := (exists_splits_of_cut? hcut).1
  have hpivot : cut.pivot ∈ catalog.operators := by
    obtain ⟨inner, last, hlexes, rfl⟩ := result_tokenize_eq_ok_iff.mp hsymbols
    have hmember : .operator cut.pivot length ∈ Symbol.start :: inner ++ [.finish] :=
      hslice.subset (by simp [hparts])
    exact hlexes.mem_operators (by simpa using hmember)
  have hsame : cut.operator = o := by
    obtain ⟨place, -, -, rfl⟩ := Operator.exists_place_of_cut? hfound
    rfl
  refine ⟨hpivot, hoperator, hoperation.symm, ⟨length, ?_⟩, hleft, hright, fun hunique => ?_⟩
  · rw [← hparts, hsame]
    exact hfound
  · exact hunique cut.operator hoperator hoperation.symm

/-- The text `7--9`, in which the context tells a subtraction from a negation of
the same spelling. -/
theorem split_applies_entry_minus :
    let symbols : List Symbol :=
      [.start, .number 7 1, .operator .subtraction 1, .operator .negation 1, .number 9 1, .finish]
    let cut : Cut :=
      ⟨.subtraction, [.number 7 1], .subtraction, [.operator .negation 1, .number 9 1]⟩
    (standard.tokenize "7--9").result = .ok symbols ∧
      .split cut ∈ (standard.evaluate symbols).events ∧
      cut.pivot ∈ standard.operators ∧ cut.operator ∈ standard.operators ∧
      cut.operator.operation = cut.pivot.operation ∧
      (∃ length, cut.operator.cut? (cut.left ++ .operator cut.pivot length :: cut.right) =
        some (.ok cut)) ∧
      standard.IsOperand cut.operator.precedence cut.left ∧
      standard.IsOperand cut.operator.precedence cut.right ∧
      ((∀ o ∈ standard.operators, o.operation = cut.pivot.operation → o = cut.pivot) →
        cut.operator = cut.pivot) := by
  intro symbols cut
  have hseven : standard.lexemes .start "7--9".toList = [⟨.number 7 1, ['-', '-', '9']⟩] := rfl
  have hminus : standard.lexemes (.number 7 1) ['-', '-', '9'] =
      [⟨.operator .subtraction 1, ['-', '9']⟩] := rfl
  have hnegate : standard.lexemes (.operator .subtraction 1) ['-', '9'] =
      [⟨.operator .negation 1, ['9']⟩] := rfl
  have hnine : standard.lexemes (.operator .negation 1) ['9'] = [⟨.number 9 1, []⟩] := rfl
  have hsymbols : (standard.tokenize "7--9").result = .ok symbols :=
    result_tokenize_eq_ok_iff.mpr ⟨_, _,
      .cons hseven (.cons hminus (.cons hnegate (.cons hnine (.nil _ _)))), rfl⟩
  have hsign : standard.cut? 0 [.operator .negation 1, .number 9 1] =
      some (.ok ⟨.negation, [], .negation, [.number 9 1]⟩) := by
    rw [cut?_eq_findSome?_ranked]
    rfl
  have hright : standard.Evaluates 0 cut.right (-9) :=
    .before ⟨rfl, by decide⟩ hsign rfl .literal rfl
  have hcut : standard.cut? 0 (dropSentinels symbols) = some (.ok cut) := by
    rw [cut?_eq_findSome?_ranked]
    rfl
  have hsplit : .split cut ∈ (standard.evaluate symbols).events :=
    split_mem_evaluate_iff.mpr
      (split_mem_of_cut? ⟨rfl, by decide⟩ hcut rfl .literal hright)
  exact ⟨hsymbols, hsplit, split_applies_entry standard "7--9" symbols hsymbols cut hsplit⟩

def tightAddition : Operator :=
  { Operator.addition with name := "tight add", spelling := "#", precedence := 2 }

def withTwoAdditions : Catalog := ⟨[.addition, .multiplication, tightAddition], []⟩

/-- With two entries of one operation, a split may apply the wrong one. In
`2*3#4` the tight addition `#` is applied as the loose one, so that the text is
read as `(2*3)+4`. -/
theorem not_forall_split_applies_entry :
    ¬ ∀ catalog : Catalog, catalog.defect? = none →
      (∀ o ∈ catalog.operators, o.arity = o.operation.operandCount) →
        ∀ (source : String) (symbols : List Symbol),
          (catalog.tokenize source).result = .ok symbols →
            ∀ cut : Cut, .split cut ∈ (catalog.evaluate symbols).events →
              cut.operator = cut.pivot := by
  intro hall
  let symbols : List Symbol :=
    [.start, .number 2 1, .operator .multiplication 1, .number 3 1, .operator tightAddition 1,
      .number 4 1, .finish]
  let cut : Cut :=
    ⟨.addition, [.number 2 1, .operator .multiplication 1, .number 3 1], tightAddition,
      [.number 4 1]⟩
  have htwo : withTwoAdditions.lexemes .start "2*3#4".toList =
      [⟨.number 2 1, ['*', '3', '#', '4']⟩] := rfl
  have htimes : withTwoAdditions.lexemes (.number 2 1) ['*', '3', '#', '4'] =
      [⟨.operator .multiplication 1, ['3', '#', '4']⟩] := rfl
  have hthree : withTwoAdditions.lexemes (.operator .multiplication 1) ['3', '#', '4'] =
      [⟨.number 3 1, ['#', '4']⟩] := rfl
  have hplus : withTwoAdditions.lexemes (.number 3 1) ['#', '4'] =
      [⟨.operator tightAddition 1, ['4']⟩] := rfl
  have hfour : withTwoAdditions.lexemes (.operator tightAddition 1) ['4'] =
      [⟨.number 4 1, []⟩] := rfl
  have hsymbols : (withTwoAdditions.tokenize "2*3#4").result = .ok symbols :=
    result_tokenize_eq_ok_iff.mpr ⟨_, _,
      .cons htwo (.cons htimes (.cons hthree (.cons hplus (.cons hfour (.nil _ _))))), rfl⟩
  have hproduct : withTwoAdditions.cut? 0 cut.left =
      some (.ok ⟨.multiplication, [.number 2 1], .multiplication, [.number 3 1]⟩) := by
    rw [cut?_eq_findSome?_ranked]
    rfl
  have hleft : withTwoAdditions.Evaluates 0 cut.left (2 * 3) :=
    .between ⟨rfl, by decide⟩ hproduct rfl .literal .literal rfl
  have hcut : withTwoAdditions.cut? 0 (dropSentinels symbols) = some (.ok cut) := by
    rw [cut?_eq_findSome?_ranked]
    rfl
  have hsplit : .split cut ∈ (withTwoAdditions.evaluate symbols).events :=
    split_mem_evaluate_iff.mpr
      (split_mem_of_cut? ⟨rfl, by decide⟩ hcut rfl hleft .literal)
  have hsame := hall withTwoAdditions (by decide) (by decide) "2*3#4" symbols hsymbols cut hsplit
  exact absurd hsame (by decide)

end Catalog

end Calculator
