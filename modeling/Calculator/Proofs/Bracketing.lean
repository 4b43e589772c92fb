import Calculator.Catalog.Standard
import Calculator.Proofs.Evaluation

/-!
Expressions with every operand in brackets. Then at most one operator symbol
stands outside brackets at a time, so no scan has a choice: whatever the
precedences, the associativities and the order of declaration, the value is that
of the tree, computed from its leaves up.
-/

namespace Calculator

open Piece

namespace Catalog

structure Entry (catalog : Catalog) (placement : Placement) where
  operator : Operator
  declared : operator ∈ catalog.operators
  placed : operator.placement = placement

/-- The expressions of a catalog, with each operator used as it is placed. -/
inductive Expression (catalog : Catalog) where
  | number (value : Float)
  | before (entry : catalog.Entry .before) (operand : Expression catalog)
  | after (entry : catalog.Entry .after) (operand : Expression catalog)
  | between (entry : catalog.Entry .between) (left right : Expression catalog)

/-- The value of an expression. An error of the left operand comes before one of
the right operand, and both before one of the operator itself. -/
def Expression.value {catalog : Catalog} : catalog.Expression → Except EvalError Float
  | .number value => .ok value
  | .before entry operand | .after entry operand => do
      let value ← operand.value
      entry.operator.apply (.unary value)
  | .between entry left right => do
      let first ← left.value
      let second ← right.value
      entry.operator.apply (.binary first second)

structure Frame (catalog : Catalog) where
  pair : BracketPair
  declared : pair ∈ catalog.brackets
  openingLength : Nat
  closingLength : Nat

namespace Frame

variable {catalog : Catalog} (frame : catalog.Frame) {inside : List Symbol}

def enclose (inside : List Symbol) : List Symbol :=
  .bracket frame.pair .opening frame.openingLength ::
    (inside ++ [.bracket frame.pair .closing frame.closingLength])

def piece (inside : List Symbol) : Piece :=
  .group (.bracket frame.pair .opening frame.openingLength) inside
    (.bracket frame.pair .closing frame.closingLength)

@[simp] theorem join_piece (inside : List Symbol) :
    join [frame.piece inside] = frame.enclose inside := by
  simp [piece, enclose]

theorem balanced_enclose (h : Balanced .opening inside) :
    Balanced .opening (frame.enclose inside) :=
  Balanced.wrap rfl h rfl

theorem pieces_enclose (h : Balanced .opening inside) :
    pieces (frame.enclose inside) = [frame.piece inside] :=
  pieces_group_append rfl h rfl []

theorem not_occursIn (inside : List Symbol) (o : Operator) :
    ¬ o.OccursIn [frame.piece inside] := by
  simp [Operator.OccursIn, piece, Piece.operator?]

theorem dropSentinels_enclose (inside : List Symbol) :
    dropSentinels (frame.enclose inside) = frame.enclose inside := by
  have hlast : (frame.enclose inside).getLast? ≠ some .finish := by
    rw [enclose, ← List.cons_append, List.getLast?_concat]
    simp
  rw [dropSentinels, dropStart_of_head? (by simp [enclose]), dropFinish_of_getLast? hlast]

/-- Inside brackets evaluation starts anew from the loosest operators. -/
theorem result_enclose (h : Balanced .opening inside) (loosest : Nat) :
    (catalog.evaluateFrom loosest (frame.enclose inside)).result =
      (catalog.evaluateFrom 0 inside).result := by
  apply result_of_group
  rw [dropSentinels_enclose, frame.pieces_enclose h]
  rfl

end Frame

/-- The ways in which an expression is written with every operand in brackets of
some pair of the catalog. -/
inductive Bracketed {catalog : Catalog} : catalog.Expression → List Symbol → Prop where
  | number (value : Float) (length : Nat) :
      Bracketed (.number value) [.number value length]
  | before (entry : catalog.Entry .before) (length : Nat) (frame : catalog.Frame)
      {operand : catalog.Expression} {inside : List Symbol} (hoperand : Bracketed operand inside) :
      Bracketed (.before entry operand) (.operator entry.operator length :: frame.enclose inside)
  | after (entry : catalog.Entry .after) (length : Nat) (frame : catalog.Frame)
      {operand : catalog.Expression} {inside : List Symbol} (hoperand : Bracketed operand inside) :
      Bracketed (.after entry operand) (frame.enclose inside ++ [.operator entry.operator length])
  | between (entry : catalog.Entry .between) (length : Nat) (leftFrame rightFrame : catalog.Frame)
      {left right : catalog.Expression} {leftInside rightInside : List Symbol}
      (hleft : Bracketed left leftInside) (hright : Bracketed right rightInside) :
      Bracketed (.between entry left right)
        (leftFrame.enclose leftInside ++
          .operator entry.operator length :: rightFrame.enclose rightInside)

theorem exists_bracketed {catalog : Catalog} (hbrackets : catalog.brackets ≠ [])
    (expression : catalog.Expression) : ∃ symbols, Bracketed expression symbols := by
  obtain ⟨pair, hpair⟩ := List.exists_mem_of_ne_nil _ hbrackets
  let frame : catalog.Frame := ⟨pair, hpair, pair.opening.utf8ByteSize, pair.closing.utf8ByteSize⟩
  induction expression with
  | number value => exact ⟨_, .number value 1⟩
  | before entry operand ih =>
      obtain ⟨inside, hoperand⟩ := ih
      exact ⟨_, .before entry entry.operator.spelling.utf8ByteSize frame hoperand⟩
  | after entry operand ih =>
      obtain ⟨inside, hoperand⟩ := ih
      exact ⟨_, .after entry entry.operator.spelling.utf8ByteSize frame hoperand⟩
  | between entry left right ihleft ihright =>
      obtain ⟨leftInside, hleft⟩ := ihleft
      obtain ⟨rightInside, hright⟩ := ihright
      exact ⟨_, .between entry entry.operator.spelling.utf8ByteSize frame frame hleft hright⟩

namespace Bracketed

variable {catalog : Catalog} {expression : catalog.Expression} {symbols : List Symbol}

theorem balanced (h : Bracketed expression symbols) : Balanced .opening symbols := by
  induction h with
  | number => exact .plain rfl .nil
  | before entry length frame _ ih => exact .plain rfl (frame.balanced_enclose ih)
  | after entry length frame _ ih =>
      exact (frame.balanced_enclose ih).append (.plain rfl .nil)
  | between entry length leftFrame rightFrame _ _ ihleft ihright =>
      exact (leftFrame.balanced_enclose ihleft).append
        (.plain rfl (rightFrame.balanced_enclose ihright))

theorem not_sentinel (h : Bracketed expression symbols) :
    .start ∉ symbols ∧ .finish ∉ symbols := by
  induction h with
  | number => simp
  | before _ _ _ _ ih | after _ _ _ _ ih => simp [Frame.enclose, ih]
  | between _ _ _ _ _ _ ihleft ihright => simp [Frame.enclose, ihleft, ihright]

theorem dropSentinels_eq (h : Bracketed expression symbols) : dropSentinels symbols = symbols :=
  dropSentinels_of_not_mem h.not_sentinel.1 h.not_sentinel.2

/-- A written expression whose only operator outside brackets is one of the
catalog is evaluated around it. -/
theorem result_of_parts (hkinds : (catalog.operators.map Operator.operation).Nodup)
    (hvalid : catalog.defect? = none) (h : Bracketed expression symbols) {o : Operator}
    (ho : o ∈ catalog.operators) {length : Nat} {before after : List Piece}
    (hparts : pieces symbols = before ++ .lone (.operator o length) :: after)
    (hbefore : ∀ other : Operator, ¬ other.OccursIn before)
    (hafter : ∀ other : Operator, ¬ other.OccursIn after)
    (haccepts : o.Accepts before after) (hside : before ≠ [] ∨ after ≠ []) :
    (catalog.evaluateFrom 0 symbols).result =
      catalog.resultAround ⟨o, join before, o, join after⟩ := by
  have hcut : o.cut? symbols = some (.ok ⟨o, join before, o, join after⟩) :=
    Operator.cut?_eq_ok_iff.mpr ⟨defect?_eq_none_iff.mp hvalid o ho, before, o, after,
      ⟨⟨length, hparts⟩, rfl⟩, haccepts, rfl⟩
  have hunique : ∀ other ∈ catalog.operators, other.OccursIn (pieces symbols) → other = o := by
    intro other hother hoccurs
    rw [hparts, Operator.occursIn_operator] at hoccurs
    rcases hoccurs with inBefore | hoperation | inAfter
    · exact absurd inBefore (hbefore other)
    · exact Operator.eq_of_operation_eq hkinds other hother o ho hoperation.symm
    · exact absurd inAfter (hafter other)
  exact result_of_cut? h.dropSentinels_eq hparts hside
    (cut?_eq_of_unique ho (Nat.zero_le _) hcut hunique)

theorem result_evaluateFrom (hkinds : (catalog.operators.map Operator.operation).Nodup)
    (hvalid : catalog.defect? = none) (h : Bracketed expression symbols) :
    (catalog.evaluateFrom 0 symbols).result = expression.value := by
  induction h with
  | number value length =>
      have hsingle : dropSentinels [.number value length] = [.number value length] :=
        dropSentinels_of_not_mem (by simp) (by simp)
      rw [result_of_single hsingle]
      rfl
  | @before entry length frame operand inside hoperand ih =>
      have hparts : pieces (.operator entry.operator length :: frame.enclose inside) =
          [] ++ .lone (.operator entry.operator length) :: [frame.piece inside] := by
        rw [pieces_operator_cons, frame.pieces_enclose hoperand.balanced, List.nil_append]
      have haccepts : entry.operator.Accepts [] [frame.piece inside] := by
        simp [Operator.Accepts, entry.placed]
      rw [result_of_parts hkinds hvalid (.before entry length frame hoperand) entry.declared hparts
        (fun _ => Operator.not_occursIn_nil) (frame.not_occursIn inside) haccepts (by simp)]
      simp only [resultAround, entry.placed, Frame.join_piece,
        frame.result_enclose hoperand.balanced, ih]
      rfl
  | @after entry length frame operand inside hoperand ih =>
      have hparts : pieces (frame.enclose inside ++ [.operator entry.operator length]) =
          [frame.piece inside] ++ .lone (.operator entry.operator length) :: [] := by
        rw [pieces_balanced_operator (frame.balanced_enclose hoperand.balanced),
          frame.pieces_enclose hoperand.balanced, pieces_nil]
      have haccepts : entry.operator.Accepts [frame.piece inside] [] := by
        simp [Operator.Accepts, entry.placed]
      rw [result_of_parts hkinds hvalid (.after entry length frame hoperand) entry.declared hparts
        (frame.not_occursIn inside) (fun _ => Operator.not_occursIn_nil) haccepts (by simp)]
      simp only [resultAround, entry.placed, Frame.join_piece,
        frame.result_enclose hoperand.balanced, ih]
      rfl
  | @between entry length leftFrame rightFrame left right leftInside rightInside hleft hright
      ihleft ihright =>
      have hparts : pieces (leftFrame.enclose leftInside ++
            .operator entry.operator length :: rightFrame.enclose rightInside) =
          [leftFrame.piece leftInside] ++
            .lone (.operator entry.operator length) :: [rightFrame.piece rightInside] := by
        rw [pieces_balanced_operator (leftFrame.balanced_enclose hleft.balanced),
          leftFrame.pieces_enclose hleft.balanced, rightFrame.pieces_enclose hright.balanced]
      have haccepts : entry.operator.Accepts [leftFrame.piece leftInside]
          [rightFrame.piece rightInside] := by
        simp only [Operator.Accepts, entry.placed, Operator.MeetsFirst]
        split
        · exact rightFrame.not_occursIn rightInside entry.operator
        · exact leftFrame.not_occursIn leftInside entry.operator
      rw [result_of_parts hkinds hvalid (.between entry length leftFrame rightFrame hleft hright)
        entry.declared hparts (leftFrame.not_occursIn leftInside)
        (rightFrame.not_occursIn rightInside) haccepts (by simp)]
      simp only [resultAround, entry.placed, Frame.join_piece,
        leftFrame.result_enclose hleft.balanced, rightFrame.result_enclose hright.balanced,
        ihleft, ihright]
      rfl

end Bracketed

/-- With every operand in brackets, precedence and grouping make no difference.
In a catalog without two operators of one operation whose operators can all be
applied, every expression can be written in this way, and however it is written,
with or without sentinels around it, it has the value of its tree or the error
that comes first from the leaves up. -/
theorem evaluates_bracketed_from_leaves (catalog : Catalog) (hbrackets : catalog.brackets ≠ [])
    (hkinds : (catalog.operators.map Operator.operation).Nodup) (hvalid : catalog.defect? = none)
    (expression : catalog.Expression) :
    (∃ symbols, Bracketed expression symbols) ∧
      ∀ symbols, Bracketed expression symbols →
        (catalog.evaluate symbols).result = expression.value ∧
          (catalog.evaluate (.start :: symbols ++ [.finish])).result = expression.value := by
  refine ⟨exists_bracketed hbrackets expression, ?_⟩
  intro symbols h
  have hvalue := h.result_evaluateFrom hkinds hvalid
  rw [result_evaluate, result_evaluate, result_of_sentinels h.not_sentinel.1 h.not_sentinel.2]
  exact ⟨hvalue, hvalue⟩

/-- The standard operators in the opposite order, used in `(1 - 2)! * (3 ^ 2)`.
The left operand of the product fails. -/
theorem evaluates_bracketed_from_leaves_reversed :
    let catalog : Catalog := ⟨standardOperators.reverse, standardBrackets⟩
    let difference : catalog.Expression :=
      .between ⟨.subtraction, by decide, rfl⟩ (.number 1) (.number 2)
    let power : catalog.Expression :=
      .between ⟨.exponentiation, by decide, rfl⟩ (.number 3) (.number 2)
    let product : catalog.Expression :=
      .between ⟨.multiplication, by decide, rfl⟩ (.after ⟨.factorial, by decide, rfl⟩ difference)
        power
    catalog.brackets ≠ [] ∧ (catalog.operators.map Operator.operation).Nodup ∧
      catalog.defect? = none ∧ product.value = .error .negativeFactorial ∧
      (∃ symbols, Bracketed product symbols) ∧
      ∀ symbols, Bracketed product symbols →
        (catalog.evaluate symbols).result = product.value ∧
          (catalog.evaluate (.start :: symbols ++ [.finish])).result = product.value := by
  intro catalog difference power product
  have hbrackets : catalog.brackets ≠ [] := by decide
  have hkinds : (catalog.operators.map Operator.operation).Nodup := by decide
  have hvalid : catalog.defect? = none := by decide
  exact ⟨hbrackets, hkinds, hvalid, rfl,
    evaluates_bracketed_from_leaves catalog hbrackets hkinds hvalid product⟩

end Catalog

end Calculator
