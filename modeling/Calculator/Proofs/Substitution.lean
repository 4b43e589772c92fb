import Calculator.Catalog.Standard
import Calculator.Proofs.Evaluation

/-!
Replacing a bracket pair by the value of its inside. The two lists differ in one
piece, which no operator looks into, so they are cut at the same places until
the replaced part is evaluated on its own. What surrounds it need not be
balanced.
-/

namespace Calculator

open Piece

/-- Equal results, up to the slice that an error about unmatched symbols shows. -/
inductive SameOutcome : Except EvalError Float → Except EvalError Float → Prop where
  | same (result : Except EvalError Float) : SameOutcome result result
  | unmatched (first second : String) :
      SameOutcome (.error (.unmatchedSymbols first)) (.error (.unmatchedSymbols second))

theorem SameOutcome.bind {first second : Except EvalError Float}
    {next next' : Float → Except EvalError Float} (h : SameOutcome first second)
    (hnext : ∀ value, SameOutcome (next value) (next' value)) :
    SameOutcome (first >>= next) (second >>= next') := by
  cases h with
  | same =>
      cases first with
      | error error => exact .same _
      | ok value => exact hnext value
  | unmatched => exact .unmatched _ _

/-- A piece before and after the symbols `old` in it are replaced by `new`: a
whole group becomes a number, or the replacement happens inside a group. -/
inductive Piece.Replaced (old new : List Symbol) : Piece → Piece → Prop where
  | whole {first last symbol : Symbol} {inside : List Symbol}
      (hold : old = first :: (inside ++ [last])) (hnew : new = [symbol])
      (hplain : symbol.side? = none ∧ symbol.operator? = none) :
      Replaced old new (.group first inside last) (.lone symbol)
  | within (first last : Symbol) (before after : List Symbol) :
      Replaced old new (.group first (before ++ old ++ after) last)
        (.group first (before ++ new ++ after) last)

namespace Piece.Replaced

variable {old new : List Symbol} {piece piece' : Piece}

theorem loneSide? (h : Replaced old new piece piece') :
    piece.loneSide? = none ∧ piece'.loneSide? = none := by
  cases h with
  | whole _ _ hplain => exact ⟨rfl, hplain.1⟩
  | within => exact ⟨rfl, rfl⟩

theorem operator? (h : Replaced old new piece piece') :
    piece.operator? = none ∧ piece'.operator? = none := by
  cases h with
  | whole _ _ hplain => exact ⟨rfl, hplain.2⟩
  | within => exact ⟨rfl, rfl⟩

theorem symbols (h : Replaced old new piece piece') :
    ∃ before after, piece.symbols = before ++ old ++ after ∧
      piece'.symbols = before ++ new ++ after := by
  cases h with
  | whole hold hnew _ =>
      exact ⟨[], [], by simp [Piece.symbols, hold], by simp [Piece.symbols, hnew]⟩
  | within first last before after =>
      exact ⟨first :: before, after ++ [last], by simp [Piece.symbols], by simp [Piece.symbols]⟩

end Piece.Replaced

/-- Putting the same symbol in front of two lists of pieces that differ in a
replacement leaves them so. -/
theorem Piece.exists_replaced_prepend {old new : List Symbol} {piece piece' : Piece}
    {left right : List Piece} (h : Replaced old new piece piece') (symbol : Symbol) :
    ∃ left' right' other other', Replaced old new other other' ∧
      prepend symbol (left ++ piece :: right) = left' ++ other :: right' ∧
      prepend symbol (left ++ piece' :: right) = left' ++ other' :: right' := by
  obtain ⟨hside, hside'⟩ := h.loneSide?
  have hopen : piece.keepsOpen = true := by simp [keepsOpen, hside]
  rcases prepend_cases symbol (left ++ piece' :: right) with ⟨hlone, hall⟩ |
    ⟨between, last, rest, hsplit, hopening, hclosing, hbetween, hgroup⟩
  · refine ⟨.lone symbol :: left, right, piece, piece', h, ?_, hlone⟩
    by_cases hopening : symbol.side? = some .opening
    · apply prepend_of_open
      intro other member
      rcases List.mem_append.mp member with inLeft | inRest
      · exact hall hopening other (List.mem_append_left _ inLeft)
      · rcases List.mem_cons.mp inRest with rfl | inRight
        · exact hopen
        · exact hall hopening other (List.mem_append_right _ (List.mem_cons_of_mem _ inRight))
    · exact prepend_of_ne_opening hopening _
  · rcases append_cons_cases hsplit with ⟨inner, rfl, rfl⟩ | ⟨-, hlast, -⟩ | ⟨inner, rfl, rfl⟩
    · refine ⟨.group symbol (join between) last :: inner, right, piece, piece', h, ?_, hgroup⟩
      rw [List.append_assoc, List.cons_append, prepend_opening hopening hclosing hbetween]
      rfl
    · rw [← hlast] at hside'
      rw [Piece.loneSide?, hclosing] at hside'
      contradiction
    · obtain ⟨before, after, hsymbols, hsymbols'⟩ := h.symbols
      have hbetween' : ∀ other ∈ left ++ piece :: inner, other.keepsOpen = true := by
        intro other member
        rcases List.mem_append.mp member with inLeft | inRest
        · exact hbetween other (List.mem_append_left _ inLeft)
        · rcases List.mem_cons.mp inRest with rfl | inInner
          · exact hopen
          · exact hbetween other (List.mem_append_right _ (List.mem_cons_of_mem _ inInner))
      refine ⟨[], rest, _, _, .within symbol last (join left ++ before) (after ++ join inner),
        ?_, ?_⟩
      · rw [← List.cons_append, ← List.append_assoc, prepend_opening hopening hclosing hbetween']
        simp [join, hsymbols]
      · rw [hgroup]
        simp [join, hsymbols']

/-- Whatever stands around the replaced part, the two lists differ in the piece
that holds it. -/
theorem exists_replaced_pieces {old new : List Symbol} {piece piece' : Piece}
    (h : Piece.Replaced old new piece piece')
    (hold : ∀ rest, pieces (old ++ rest) = piece :: pieces rest)
    (hnew : ∀ rest, pieces (new ++ rest) = piece' :: pieces rest) (before after : List Symbol) :
    ∃ left right other other', Piece.Replaced old new other other' ∧
      pieces (before ++ old ++ after) = left ++ other :: right ∧
      pieces (before ++ new ++ after) = left ++ other' :: right := by
  induction before with
  | nil => exact ⟨[], pieces after, piece, piece', h, hold after, hnew after⟩
  | cons symbol rest ih =>
      obtain ⟨left, right, other, other', hother, hleft, hright⟩ := ih
      simp only [List.cons_append, pieces_cons, hleft, hright]
      obtain ⟨left', right', other₂, other₂', h', hold', hnew'⟩ :=
        @exists_replaced_prepend old new other other' left right hother symbol
      exact ⟨left', right', other₂, other₂', h', hold', hnew'⟩

section Cuts

variable {old new slice slice' : List Symbol} {left right : List Piece} {piece piece' : Piece}
variable {o : Operator}

/-- A piece that is no operator has no part in where an operation occurs. -/
theorem Operator.occursIn_middle (hpiece : piece.operator? = none) :
    o.OccursIn (left ++ piece :: right) ↔ o.OccursIn left ∨ o.OccursIn right := by
  have hlone : ¬ o.OccursIn [piece] := by simp [OccursIn, hpiece]
  rw [← List.singleton_append, occursIn_append, occursIn_append]
  simp [hlone]

/-- A piece that is no operator may be replaced by another one without moving
the occurrence that is accepted. -/
theorem Operator.accepts_middle (hpiece : piece.operator? = none)
    (hpiece' : piece'.operator? = none) (first last other : List Piece) :
    (o.Accepts (first ++ piece :: last) other ↔ o.Accepts (first ++ piece' :: last) other) ∧
      (o.Accepts other (first ++ piece :: last) ↔ o.Accepts other (first ++ piece' :: last)) := by
  unfold Accepts MeetsFirst
  cases o.placement with
  | before | after => simp
  | between => simp [occursIn_middle hpiece, occursIn_middle hpiece']

/-- Two slices that differ in a piece that is no operator are cut at the same
place. -/
theorem Operator.cut?_middle (hslice : pieces slice = left ++ piece :: right)
    (hslice' : pieces slice' = left ++ piece' :: right) (hpiece : piece.operator? = none)
    (hpiece' : piece'.operator? = none) {cut : Cut} (h : o.cut? slice = some (.ok cut)) :
    (∃ before entry inner,
      cut = ⟨o, join before, entry, join (inner ++ piece :: right)⟩ ∧
        o.cut? slice' = some (.ok ⟨o, join before, entry, join (inner ++ piece' :: right)⟩)) ∨
      ∃ inner entry after,
        cut = ⟨o, join (left ++ piece :: inner), entry, join after⟩ ∧
          o.cut? slice' = some (.ok ⟨o, join (left ++ piece' :: inner), entry, join after⟩) := by
  obtain ⟨hdefect, before, entry, after, hsplits, haccepts, rfl⟩ := cut?_eq_ok_iff.mp h
  rw [hslice] at hsplits
  rcases hsplits.cases_middle with ⟨inner, hinner, rfl⟩ | ⟨-, hentry, -⟩ | ⟨inner, hinner, rfl⟩
  · have hsplits' := hinner.append_right (piece' :: right)
    have haccepts' := (accepts_middle hpiece hpiece' inner right before).2.mp haccepts
    rw [← hslice'] at hsplits'
    exact Or.inl ⟨before, entry, inner, rfl,
      cut?_eq_ok_iff.mpr ⟨hdefect, before, entry, _, hsplits', haccepts', rfl⟩⟩
  · rw [hpiece] at hentry
    contradiction
  · have hsplits' := hinner.append_left (left ++ [piece'])
    have haccepts' := (accepts_middle hpiece hpiece' left inner after).1.mp haccepts
    simp only [List.append_assoc, List.singleton_append] at hsplits'
    rw [← hslice'] at hsplits'
    exact Or.inr ⟨inner, entry, after, rfl,
      cut?_eq_ok_iff.mpr ⟨hdefect, _, entry, after, hsplits', haccepts', rfl⟩⟩

inductive CutsAlike (old new : List Symbol) : Except EvalError Cut → Except EvalError Cut → Prop
  | error (error : EvalError) : CutsAlike old new (.error error) (.error error)
  | left (o entry : Operator) (before after right : List Symbol) :
      CutsAlike old new (.ok ⟨o, before ++ old ++ after, entry, right⟩)
        (.ok ⟨o, before ++ new ++ after, entry, right⟩)
  | right (o entry : Operator) (left before after : List Symbol) :
      CutsAlike old new (.ok ⟨o, left, entry, before ++ old ++ after⟩)
        (.ok ⟨o, left, entry, before ++ new ++ after⟩)

/-- An operator finds a cut in both slices or in neither. -/
theorem Operator.cutsAlike (h : Piece.Replaced old new piece piece')
    (hslice : pieces slice = left ++ piece :: right)
    (hslice' : pieces slice' = left ++ piece' :: right) (o : Operator) :
    Option.Rel (CutsAlike old new) (o.cut? slice) (o.cut? slice') := by
  obtain ⟨hpiece, hpiece'⟩ := h.operator?
  have hoccurs : o.OccursIn (pieces slice) ↔ o.OccursIn (pieces slice') := by
    rw [hslice, hslice', occursIn_middle hpiece, occursIn_middle hpiece']
  obtain ⟨front, back, hsymbols, hsymbols'⟩ := h.symbols
  have hside (first last : List Piece) :
      join (first ++ piece :: last) = join first ++ front ++ old ++ (back ++ join last) := by
    simp [join, hsymbols]
  have hside' (first last : List Piece) :
      join (first ++ piece' :: last) = join first ++ front ++ new ++ (back ++ join last) := by
    simp [join, hsymbols']
  cases hcut : o.cut? slice with
  | none =>
      cases hcut' : o.cut? slice' with
      | none => exact .none
      | some found =>
          exfalso
          cases found with
          | error error =>
              rw [cut?_eq_error_iff, ← hoccurs, ← cut?_eq_error_iff, hcut] at hcut'
              contradiction
          | ok cut =>
              rcases cut?_middle hslice' hslice hpiece' hpiece hcut' with
                ⟨_, _, _, _, hsome⟩ | ⟨_, _, _, _, hsome⟩
              · simp [hcut] at hsome
              · simp [hcut] at hsome
  | some found =>
      cases found with
      | error error =>
          rw [cut?_eq_error_iff, hoccurs, ← cut?_eq_error_iff] at hcut
          rw [hcut]
          exact .some (.error error)
      | ok cut =>
          rcases cut?_middle hslice hslice' hpiece hpiece' hcut with
            ⟨before, entry, inner, rfl, hcut'⟩ | ⟨inner, entry, after, rfl, hcut'⟩
          · rw [hcut', hside, hside']
            exact .some (.right o entry _ _ _)
          · rw [hcut', hside, hside']
            exact .some (.left o entry _ _ _)

theorem Catalog.cutsAlike (h : Piece.Replaced old new piece piece')
    (hslice : pieces slice = left ++ piece :: right)
    (hslice' : pieces slice' = left ++ piece' :: right) (catalog : Catalog) (loosest : Nat) :
    Option.Rel (CutsAlike old new) (catalog.cut? loosest slice) (catalog.cut? loosest slice') := by
  unfold cut?
  induction catalog.ladder loosest with
  | nil => exact .none
  | cons o rest ih =>
      have halike := o.cutsAlike h hslice hslice'
      rw [List.findSome?_cons, List.findSome?_cons]
      generalize o.cut? slice = found at halike ⊢
      generalize o.cut? slice' = found' at halike ⊢
      cases halike with
      | none => exact ih
      | some hfound => exact .some hfound

end Cuts

namespace Catalog

variable {catalog : Catalog} {old new : List Symbol}

/-- Operands with the same outcomes give the same outcome around a cut. -/
theorem sameOutcome_around {o entry entry' : Operator} {left left' right right' : List Symbol}
    (hleft : SameOutcome (catalog.evaluateFrom o.precedence left).result
      (catalog.evaluateFrom o.precedence left').result)
    (hright : SameOutcome (catalog.evaluateFrom o.precedence right).result
      (catalog.evaluateFrom o.precedence right').result) :
    SameOutcome (catalog.resultAround ⟨o, left, entry, right⟩)
      (catalog.resultAround ⟨o, left', entry', right'⟩) := by
  unfold resultAround
  cases o.placement with
  | before => exact hright.bind fun value => .same _
  | after => exact hleft.bind fun value => .same _
  | between => exact hleft.bind fun first => hright.bind fun second => .same _

/-- Two slices with like cuts have the same outcome, if shorter slices that
differ in the replaced part do. -/
theorem sameOutcome_of_cuts {loosest : Nat} {symbols symbols' : List Symbol}
    (hcompound : IsCompound (dropSentinels symbols))
    (hcompound' : IsCompound (dropSentinels symbols'))
    (hcuts : Option.Rel (CutsAlike old new) (catalog.cut? loosest (dropSentinels symbols))
      (catalog.cut? loosest (dropSentinels symbols')))
    (hshorter : ∀ before after precedence,
      (before ++ old ++ after).length < (dropSentinels symbols).length →
        SameOutcome (catalog.evaluateFrom precedence (before ++ old ++ after)).result
          (catalog.evaluateFrom precedence (before ++ new ++ after)).result) :
    SameOutcome (catalog.evaluateFrom loosest symbols).result
      (catalog.evaluateFrom loosest symbols').result := by
  rw [result_of_compound hcompound, result_of_compound hcompound']
  generalize hcut : catalog.cut? loosest (dropSentinels symbols) = found at hcuts ⊢
  generalize catalog.cut? loosest (dropSentinels symbols') = found' at hcuts ⊢
  cases hcuts with
  | none => exact .unmatched _ _
  | some hfound =>
      cases hfound with
      | error error => exact .same _
      | left o entry before after right =>
          have hleft := (length_lt_of_cut? hcut).1
          exact sameOutcome_around (hshorter before after o.precedence hleft) (.same _)
      | right o entry left before after =>
          have hright := (length_lt_of_cut? hcut).2
          exact sameOutcome_around (.same _) (hshorter before after o.precedence hright)

/-- A bracket pair and the value of its inside have the same outcome wherever
they stand. -/
theorem sameOutcome_of_value {inside : List Symbol} {value : Float}
    (hvalue : (catalog.evaluateFrom 0 inside).result = .ok value) (pair pair' : BracketPair)
    (firstLength lastLength length : Nat) (before after : List Symbol) (loosest : Nat) :
    SameOutcome
      (catalog.evaluateFrom loosest (before ++ .bracket pair .opening firstLength ::
        (inside ++ [.bracket pair' .closing lastLength]) ++ after)).result
      (catalog.evaluateFrom loosest (before ++ [.number value length] ++ after)).result := by
  have hinside := (result_eq_ok_iff.mp hvalue).balanced
  generalize hold : Symbol.bracket pair .opening firstLength ::
    (inside ++ [.bracket pair' .closing lastLength]) = old
  generalize hnew : [Symbol.number value length] = new
  have hreplaced : Piece.Replaced old new
      (.group (.bracket pair .opening firstLength) inside (.bracket pair' .closing lastLength))
      (.lone (.number value length)) :=
    .whole hold.symm hnew.symm ⟨rfl, rfl⟩
  induction hsize : (before ++ old ++ after).length using Nat.strongRecOn
    generalizing before after loosest with
  | _ size ih =>
    subst hsize
    -- The replaced part stays when sentinels at the ends of the list are dropped.
    have hdrop : dropSentinels (before ++ old ++ after) =
        dropStart before ++ old ++ dropFinish after := by
      subst hold
      exact dropSentinels_append (by simp) (by simp) (by simp [List.getLast?_cons])
    have hdrop' : dropSentinels (before ++ new ++ after) =
        dropStart before ++ new ++ dropFinish after := by
      subst hnew
      exact dropSentinels_append (by simp) (by simp) (by simp)
    have hshorter := length_dropSentinels_le (before ++ old ++ after)
    obtain ⟨left, right, piece, piece', hpieces, hslice, hslice'⟩ :=
      exists_replaced_pieces hreplaced
        (fun rest => by
          subst hold
          simpa using pieces_group_append rfl hinside rfl rest)
        (fun rest => by
          subst hnew
          exact prepend_of_ne_opening (by simp [Symbol.side?]) (pieces rest))
        (dropStart before) (dropFinish after)
    rw [← hdrop] at hslice
    rw [← hdrop'] at hslice'
    by_cases hsingle : left = [] ∧ right = []
    · obtain ⟨rfl, rfl⟩ := hsingle
      cases hpieces with
      | whole hold' hnew' _ =>
          rw [← hold] at hold'
          obtain ⟨hfirst, hrest⟩ := List.cons.inj hold'
          obtain ⟨rfl, -⟩ := List.append_inj' hrest rfl
          rw [← hnew, List.singleton_inj] at hnew'
          have hnumber : dropSentinels (before ++ new ++ after) = [.number value length] := by
            rw [← join_pieces (dropSentinels _), hslice', ← hnew']
            rfl
          rw [result_of_group hslice, result_of_single hnumber, hvalue]
          exact .same _
      | within first last front back =>
          have hinner := length_lt_of_unwrap? (unwrap?_eq_some_iff.mpr ⟨first, last, hslice⟩)
          rw [result_of_group hslice, result_of_group hslice']
          exact ih _ (by omega) front back 0 rfl
    · have hlength (part : Piece) : (left ++ part :: right).length ≠ 1 := by
        intro hone
        rw [List.length_append, List.length_cons] at hone
        exact hsingle ⟨List.eq_nil_of_length_eq_zero (by omega),
          List.eq_nil_of_length_eq_zero (by omega)⟩
      apply sameOutcome_of_cuts (isCompound_of_pieces (hslice ▸ hlength piece))
        (isCompound_of_pieces (hslice' ▸ hlength piece'))
        (catalog.cutsAlike hpieces hslice hslice' loosest)
      intro front back precedence hinner
      exact ih _ (by omega) front back precedence rfl

/-- The sum `1 + 2` in brackets, with a closing bracket before it that has no
partner and a factorial after it. -/
theorem sameOutcome_of_value_unbalanced :
    let pair := standardBrackets[0]
    let inside : List Symbol := [.number 1 1, .operator .addition 1, .number 2 1]
    let before : List Symbol := [.bracket pair .closing 1]
    let after : List Symbol := [.operator .factorial 1]
    (standard.evaluateFrom 0 inside).result = .ok 3 ∧
      SameOutcome
        (standard.evaluateFrom 0 (before ++ .bracket pair .opening 1 ::
          (inside ++ [.bracket pair .closing 1]) ++ after)).result
        (standard.evaluateFrom 0 (before ++ [.number 3 1] ++ after)).result := by
  intro pair inside before after
  have hcompound : IsCompound (dropSentinels inside) := ⟨rfl, by decide⟩
  have hcut : standard.cut? 0 (dropSentinels inside) =
      some (.ok ⟨.addition, [.number 1 1], .addition, [.number 2 1]⟩) := by
    rw [cut?_eq_findSome?_ranked]
    rfl
  have hsum : standard.Evaluates 0 inside 3 :=
    .between hcompound hcut rfl .literal .literal
      (congrArg Except.ok (by decide +kernel : (1 + 2 : Float) = 3))
  have hvalue := result_eq_ok_iff.mpr hsum
  exact ⟨hvalue, sameOutcome_of_value hvalue pair pair 1 1 1 before after 0⟩

end Catalog

end Calculator
