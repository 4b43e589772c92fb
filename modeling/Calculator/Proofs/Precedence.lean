import Calculator.Catalog.Standard
import Calculator.Proofs.Events
import Calculator.Proofs.WellNested

/-!
Precedence and grouping of the splits of a run. The operands of a split hold no
looser operators outside brackets, and on the side from which an operator with
two operands groups, its operand holds no further occurrence of it.
-/

namespace Calculator

open Piece

/-- An operator symbol with this entry stands in the list where no bracket is
open. -/
def Operator.StandsOutside (entry : Operator) (symbols : List Symbol) : Prop :=
  ∃ front length back, symbols = front ++ .operator entry length :: back ∧ WellNested front

theorem Operator.StandsOutside.exists_piece {entry : Operator} {symbols : List Symbol}
    (h : entry.StandsOutside symbols) :
    ∃ piece ∈ pieces symbols, piece.operator? = some entry := by
  obtain ⟨front, length, back, rfl, hfront⟩ := h
  rw [pieces_balanced_operator (wellNested_iff_balanced.mp hfront)]
  exact ⟨_, List.mem_append_right _ List.mem_cons_self, rfl⟩

namespace Catalog

variable {catalog : Catalog} {loosest : Nat} {symbols : List Symbol}

/-- Sentinels at the ends hold no operators. -/
theorem mem_pieces_dropSentinels {piece : Piece} {entry : Operator}
    (hpiece : piece ∈ pieces symbols) (hentry : piece.operator? = some entry) :
    piece ∈ pieces (dropSentinels symbols) := by
  obtain ⟨before, after, hparts, hbefore, hafter⟩ := exists_pieces_eq_dropSentinels symbols
  rw [hparts] at hpiece
  rcases List.mem_append.mp hpiece with earlier | later
  · rcases List.mem_append.mp earlier with inBefore | inSlice
    · rcases hbefore with rfl | rfl
      · contradiction
      · rw [List.mem_singleton.mp inBefore] at hentry
        contradiction
    · exact inSlice
  · rcases hafter with rfl | rfl
    · contradiction
    · rw [List.mem_singleton.mp later] at hentry
      contradiction

/-- The operators outside brackets of a slice that is cut: the one at the cut, or
one of its sides. -/
theorem exists_operator_of_cut? {slice : List Symbol} {cut : Cut} {piece : Piece} {entry : Operator}
    (hcut : catalog.cut? loosest slice = some (.ok cut)) (hpiece : piece ∈ pieces slice)
    (hentry : piece.operator? = some entry)
    (hsides : ∀ side, side = cut.left ∨ side = cut.right → piece ∈ pieces side →
      ∃ o ∈ catalog.operators, o.operation = entry.operation ∧
        cut.operator.precedence ≤ o.precedence) :
    ∃ o ∈ catalog.operators, o.operation = entry.operation ∧ loosest ≤ o.precedence := by
  obtain ⟨hmember, hloosest, -⟩ := exists_splits_of_cut? hcut
  obtain ⟨length, hparts⟩ := pieces_of_cut? hcut
  have hside {side : List Symbol} (hside : side = cut.left ∨ side = cut.right)
      (inSide : piece ∈ pieces side) :
      ∃ o ∈ catalog.operators, o.operation = entry.operation ∧ loosest ≤ o.precedence := by
    obtain ⟨o, ho, hoperation, htighter⟩ := hsides side hside inSide
    exact ⟨o, ho, hoperation, Nat.le_trans hloosest htighter⟩
  rw [hparts] at hpiece
  rcases List.mem_append.mp hpiece with inLeft | later
  · exact hside (Or.inl rfl) inLeft
  · rcases List.mem_cons.mp later with rfl | inRight
    · cases hentry
      exact ⟨cut.operator, hmember, (slice_eq_of_cut? hcut).2.1.symm, hloosest⟩
    · exact hside (Or.inr rfl) inRight

/-- Outside brackets, what has a value holds no operator looser than the
precedence with which it was evaluated. -/
theorem Evaluates.exists_operator {value : Float} (h : catalog.Evaluates loosest symbols value)
    {piece : Piece} (hpiece : piece ∈ pieces symbols) {entry : Operator}
    (hentry : piece.operator? = some entry) :
    ∃ o ∈ catalog.operators, o.operation = entry.operation ∧ loosest ≤ o.precedence := by
  induction h with
  | number hsingle =>
      have hinside := mem_pieces_dropSentinels hpiece hentry
      rw [hsingle, pieces_singleton, List.mem_singleton] at hinside
      subst hinside
      contradiction
  | group hgroup _ _ =>
      have hinside := mem_pieces_dropSentinels hpiece hentry
      rw [hgroup, List.mem_singleton] at hinside
      subst hinside
      contradiction
  | before _ hcut hplacement _ _ ih =>
      apply exists_operator_of_cut? hcut (mem_pieces_dropSentinels hpiece hentry) hentry
      rintro side (rfl | rfl) inSide
      · rw [(slice_eq_of_cut? hcut).2.2.1 hplacement] at inSide
        contradiction
      · exact ih inSide
  | after _ hcut hplacement _ _ ih =>
      apply exists_operator_of_cut? hcut (mem_pieces_dropSentinels hpiece hentry) hentry
      rintro side (rfl | rfl) inSide
      · exact ih inSide
      · rw [(slice_eq_of_cut? hcut).2.2.2 hplacement] at inSide
        contradiction
  | between _ hcut _ _ _ _ ihleft ihright =>
      apply exists_operator_of_cut? hcut (mem_pieces_dropSentinels hpiece hentry) hentry
      rintro side (rfl | rfl) inSide
      · exact ihleft inSide
      · exact ihright inSide

theorem IsOperand.wellNested {precedence : Nat} {side : List Symbol}
    (h : catalog.IsOperand precedence side) : WellNested side := by
  rcases h with rfl | ⟨value, hvalue⟩
  · exact .nil
  · exact hvalue.balanced.wellNested

theorem IsOperand.exists_operator {precedence : Nat} {side : List Symbol} {entry : Operator}
    (h : catalog.IsOperand precedence side) (hentry : entry.StandsOutside side) :
    ∃ o ∈ catalog.operators, o.operation = entry.operation ∧ precedence ≤ o.precedence := by
  obtain ⟨piece, hpiece, hoperator⟩ := hentry.exists_piece
  rcases h with rfl | ⟨value, hvalue⟩
  · contradiction
  · exact hvalue.exists_operator hpiece hoperator

/-- An operator between its operands is cut at its last occurrence if it groups
from the left, and at its first one otherwise. -/
theorem operation_ne_of_cut? {slice : List Symbol} {cut : Cut} {entry : Operator}
    (hcut : catalog.cut? loosest slice = some (.ok cut))
    (hplacement : cut.operator.placement = .between)
    (hentry : entry.StandsOutside
      (if cut.operator.associativity = .left then cut.right else cut.left)) :
    entry.operation ≠ cut.operator.operation := by
  obtain ⟨-, -, hdefect, -, before, after, hsplits, haccepts, hleft, hright⟩ :=
    exists_splits_of_cut? hcut
  obtain ⟨hbefore, hafter⟩ := hsplits.pieces_join
  obtain ⟨piece, hpiece, hoperator⟩ := hentry.exists_piece
  have harity : cut.operator.arity = 2 := by
    rcases Operator.defect?_eq_none_iff.mp hdefect with ⟨-, hunary⟩ | ⟨htwo, -⟩
    · contradiction
    · exact htwo
  simp only [Operator.Accepts, hplacement, Operator.MeetsFirst, Operator.groupsFromLeft, harity,
    decide_true, Bool.true_and, decide_eq_true_eq] at haccepts
  intro hsame
  split at hpiece
  · rename_i hassociativity
    rw [if_pos hassociativity] at haccepts
    rw [hright, hafter] at hpiece
    exact haccepts ⟨piece, hpiece, entry, hoperator, hsame⟩
  · rename_i hassociativity
    rw [if_neg hassociativity] at haccepts
    rw [hleft, hbefore] at hpiece
    exact haccepts ⟨piece, hpiece, entry, hoperator, hsame⟩

/-- The splits of any run respect precedence and grouping, whatever becomes of
the run afterwards. Both sides of a split are well nested, outside brackets they
hold only operations of operators at least as tight, and if the operator stands
between its operands, its operation does not occur outside brackets to its right
if it groups from the left, nor to its left otherwise. -/
theorem split_respects_precedence (catalog : Catalog) (loosest : Nat) (symbols : List Symbol)
    (cut : Cut) (h : .split cut ∈ (catalog.evaluateFrom loosest symbols).events) :
    WellNested cut.left ∧ WellNested cut.right ∧
      (∀ entry : Operator, entry.StandsOutside cut.left ∨ entry.StandsOutside cut.right →
        ∃ o ∈ catalog.operators, o.operation = entry.operation ∧
          cut.operator.precedence ≤ o.precedence) ∧
      (cut.operator.placement = .between →
        (cut.operator.associativity = .left → ∀ entry : Operator,
          entry.StandsOutside cut.right → entry.operation ≠ cut.operator.operation) ∧
        (cut.operator.associativity ≠ .left → ∀ entry : Operator,
          entry.StandsOutside cut.left → entry.operation ≠ cut.operator.operation)) := by
  obtain ⟨start, slice, -, hcut, hleft, hright⟩ := exists_cut_of_split_mem h
  refine ⟨hleft.wellNested, hright.wellNested, ?_, fun hplacement => ⟨?_, ?_⟩⟩
  · rintro entry (inLeft | inRight)
    · exact hleft.exists_operator inLeft
    · exact hright.exists_operator inRight
  · intro hassociativity entry hentry
    exact operation_ne_of_cut? hcut hplacement (by rwa [if_pos hassociativity])
  · intro hassociativity entry hentry
    exact operation_ne_of_cut? hcut hplacement (by rwa [if_neg hassociativity])

/-- The second difference of `6 - (1 + 2) - 3 + )`. The run fails at the closing
bracket after this split. -/
theorem split_respects_precedence_unbalanced :
    let pair := standardBrackets[0]
    let left : List Symbol :=
      [.number 6 1, .operator .subtraction 1, .bracket pair .opening 1, .number 1 1,
        .operator .addition 1, .number 2 1, .bracket pair .closing 1]
    let right : List Symbol := [.number 3 1]
    let cut : Cut := ⟨.subtraction, left, .subtraction, right⟩
    let symbols := left ++ .operator .subtraction 1 ::
      (right ++ [.operator .addition 1, .bracket pair .closing 1])
    .split cut ∈ (standard.evaluateFrom 0 symbols).events ∧
      WellNested cut.left ∧ WellNested cut.right ∧
      (∀ entry : Operator, entry.StandsOutside cut.left ∨ entry.StandsOutside cut.right →
        ∃ o ∈ standard.operators, o.operation = entry.operation ∧
          cut.operator.precedence ≤ o.precedence) ∧
      (cut.operator.placement = .between →
        (cut.operator.associativity = .left → ∀ entry : Operator,
          entry.StandsOutside cut.right → entry.operation ≠ cut.operator.operation) ∧
        (cut.operator.associativity ≠ .left → ∀ entry : Operator,
          entry.StandsOutside cut.left → entry.operation ≠ cut.operator.operation)) := by
  intro pair left right cut symbols
  let inside : List Symbol := [.number 1 1, .operator .addition 1, .number 2 1]
  let group : List Symbol := .bracket pair .opening 1 :: (inside ++ [.bracket pair .closing 1])
  have hplus : standard.cut? 0 (dropSentinels inside) =
      some (.ok ⟨.addition, [.number 1 1], .addition, [.number 2 1]⟩) := by
    rw [cut?_eq_findSome?_ranked]
    rfl
  have hsum : standard.Evaluates 0 inside 3 :=
    .between ⟨rfl, by decide⟩ hplus rfl .literal .literal
      (congrArg Except.ok (by decide +kernel : (1 + 2 : Float) = 3))
  have hfirst : standard.cut? 0 (dropSentinels left) =
      some (.ok ⟨.subtraction, [.number 6 1], .subtraction, group⟩) := by
    rw [cut?_eq_findSome?_ranked]
    rfl
  have hleft : standard.Evaluates 0 left 3 :=
    .between ⟨rfl, by decide⟩ hfirst rfl .literal (.group rfl hsum)
      (congrArg Except.ok (by decide +kernel : (6 - 3 : Float) = 3))
  have hsecond : standard.cut? 0 (dropSentinels (left ++ .operator .subtraction 1 :: right)) =
      some (.ok cut) := by
    rw [cut?_eq_findSome?_ranked]
    rfl
  have hstray : standard.cut? 0 (dropSentinels symbols) =
      some (.ok ⟨.addition, left ++ .operator .subtraction 1 :: right, .addition,
        [.bracket pair .closing 1]⟩) := by
    rw [cut?_eq_findSome?_ranked]
    rfl
  have hsplit : .split cut ∈ (standard.evaluateFrom 0 symbols).events :=
    mem_events_of_left ⟨rfl, by decide⟩ hstray rfl
      (split_mem_of_cut? ⟨rfl, by decide⟩ hsecond rfl hleft .literal)
  exact ⟨hsplit, split_respects_precedence standard 0 symbols cut hsplit⟩

end Catalog

end Calculator
