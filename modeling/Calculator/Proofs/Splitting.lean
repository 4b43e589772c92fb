import Calculator.Proofs.Scan
import Calculator.Cut

/-!
Where a slice is cut, in terms of its pieces. An operator of two operands is cut
at the last lone occurrence of its operation if it groups from the left and at
the first one otherwise; an operator of one operand is cut at the end of the
slice at which it stands. An operator that cannot be applied fails as soon as
its operation occurs outside brackets at all.
-/

namespace Calculator

open Piece

def Piece.operator? : Piece → Option Operator
  | .lone symbol => symbol.operator?
  | .group .. => none

@[simp] theorem Piece.operator?_lone_operator (entry : Operator) (length : Nat) :
    (Piece.lone (.operator entry length)).operator? = some entry := rfl

theorem Piece.eq_lone_of_operator? {piece : Piece} {entry : Operator}
    (h : piece.operator? = some entry) : ∃ length, piece = .lone (.operator entry length) := by
  cases piece with
  | group first inside last => simp [operator?] at h
  | lone symbol =>
      cases symbol with
      | operator found length =>
          simp only [operator?, Symbol.operator?, Option.some.injEq] at h
          exact ⟨length, by rw [h]⟩
      | _ => simp [operator?, Symbol.operator?] at h

namespace Operator

variable {o entry : Operator} {parts before after : List Piece}

/-- Whether the operation of the operator occurs outside all brackets. -/
def OccursIn (o : Operator) (parts : List Piece) : Prop :=
  ∃ piece ∈ parts, ∃ entry, piece.operator? = some entry ∧ entry.operation = o.operation

structure Splits (o : Operator) (parts before : List Piece) (entry : Operator)
    (after : List Piece) : Prop where
  parts_eq : ∃ length, parts = before ++ .lone (.operator entry length) :: after
  operation_eq : entry.operation = o.operation

/-- Whether an occurrence with these pieces around it is the first one that a
scan for the operator finds. -/
def MeetsFirst (o : Operator) (before after : List Piece) : Prop :=
  if o.groupsFromLeft then ¬ o.OccursIn after else ¬ o.OccursIn before

/-- Whether a slice is cut at an occurrence with these pieces around it. -/
def Accepts (o : Operator) (before after : List Piece) : Prop :=
  match o.placement with
  | .before => before = []
  | .after => after = []
  | .between => o.MeetsFirst before after

theorem occursIn_append :
    o.OccursIn (before ++ after) ↔ o.OccursIn before ∨ o.OccursIn after := by
  simp [OccursIn, or_and_right, exists_or]

theorem occursIn_operator {length : Nat} :
    o.OccursIn (before ++ .lone (.operator entry length) :: after) ↔
      o.OccursIn before ∨ entry.operation = o.operation ∨ o.OccursIn after := by
  rw [← List.singleton_append, occursIn_append, occursIn_append]
  simp [OccursIn]

@[simp] theorem not_occursIn_nil : ¬ o.OccursIn [] := by simp [OccursIn]

theorem Splits.occursIn (h : o.Splits parts before entry after) : o.OccursIn parts := by
  obtain ⟨length, rfl⟩ := h.parts_eq
  exact ⟨.lone (.operator entry length), by simp, entry, rfl, h.operation_eq⟩

/-- The slice around an occurrence, as symbols. -/
theorem Splits.slice_eq {slice : List Symbol} (h : o.Splits (pieces slice) before entry after) :
    ∃ length, slice = join before ++ .operator entry length :: join after := by
  obtain ⟨length, hparts⟩ := h.parts_eq
  exact ⟨length, by rw [← join_pieces slice, hparts, join_append, join_lone]⟩

/-- Both sides of an occurrence keep their pieces when they stand alone. -/
theorem Splits.pieces_join {slice : List Symbol} (h : o.Splits (pieces slice) before entry after) :
    pieces (join before) = before ∧ pieces (join after) = after := by
  obtain ⟨length, hparts⟩ := h.parts_eq
  have hnormal := isNormal_pieces slice
  rw [hparts] at hnormal
  exact ⟨Piece.pieces_join hnormal.left, Piece.pieces_join hnormal.right.tail⟩

theorem Splits.append_right (h : o.Splits parts before entry after) (rest : List Piece) :
    o.Splits (parts ++ rest) before entry (after ++ rest) := by
  obtain ⟨⟨length, rfl⟩, hoperation⟩ := h
  exact ⟨⟨length, by simp⟩, hoperation⟩

theorem Splits.append_left (h : o.Splits parts before entry after) (rest : List Piece) :
    o.Splits (rest ++ parts) (rest ++ before) entry after := by
  obtain ⟨⟨length, rfl⟩, hoperation⟩ := h
  exact ⟨⟨length, by simp⟩, hoperation⟩

/-- An occurrence lies to the left of a piece, at it, or to its right. -/
theorem Splits.cases_middle {piece : Piece} {left right : List Piece}
    (h : o.Splits (left ++ piece :: right) before entry after) :
    (∃ inner, o.Splits left before entry inner ∧ after = inner ++ piece :: right) ∨
      (before = left ∧ piece.operator? = some entry ∧ after = right) ∨
      ∃ inner, o.Splits right inner entry after ∧ before = left ++ piece :: inner := by
  obtain ⟨⟨length, hparts⟩, hoperation⟩ := h
  rcases append_cons_cases hparts with ⟨inner, rfl, rfl⟩ | ⟨rfl, rfl, rfl⟩ | ⟨inner, rfl, rfl⟩
  · exact Or.inl ⟨inner, ⟨⟨length, rfl⟩, hoperation⟩, rfl⟩
  · exact Or.inr (Or.inl ⟨rfl, rfl, rfl⟩)
  · exact Or.inr (Or.inr ⟨inner, ⟨⟨length, rfl⟩, hoperation⟩, rfl⟩)

def markAt (o : Operator) (place : Nat × Symbol) : Option (Nat × Operator) :=
  (place.2.operator?.filter fun entry => entry.operation = o.operation).map fun entry =>
    (place.1, entry)

theorem markAt_operator (h : entry.operation = o.operation) (position length : Nat) :
    o.markAt (position, .operator entry length) = some (position, entry) := by
  simp [markAt, Symbol.operator?, h]

theorem markAt_eq_none_iff {position : Nat} {symbol : Symbol} :
    o.markAt (position, symbol) = none ↔ ¬ o.OccursIn [.lone symbol] := by
  simp [markAt, OccursIn, operator?]

def marksFrom (o : Operator) (position : Nat) (parts : List Piece) : List (Nat × Operator) :=
  (lonesFrom position parts).filterMap o.markAt

theorem occurrences_eq (o : Operator) (slice : List Symbol) :
    o.occurrences slice = o.direction.orient (o.marksFrom 0 (pieces slice)) := by
  change (outside o.direction slice).filterMap o.markAt = _
  cases o.direction with
  | forward => rw [outside_forward, marksFrom, Direction.orient]
  | backward => rw [outside_backward, List.filterMap_reverse, marksFrom, Direction.orient]

theorem marksFrom_append (position : Nat) (before after : List Piece) :
    o.marksFrom position (before ++ after) =
      o.marksFrom position before ++ o.marksFrom (position + (join before).length) after := by
  rw [marksFrom, lonesFrom_append, List.filterMap_append]
  rfl

theorem marksFrom_split (h : entry.operation = o.operation) (position length : Nat) :
    o.marksFrom position (before ++ .lone (.operator entry length) :: after) =
      o.marksFrom position before ++ (position + (join before).length, entry) ::
        o.marksFrom (position + (join before).length + 1) after := by
  rw [marksFrom_append, marksFrom, marksFrom, lonesFrom,
    List.filterMap_cons_some (markAt_operator h _ _), marksFrom]

theorem marksFrom_eq_nil_iff {position : Nat} :
    o.marksFrom position parts = [] ↔ ¬ o.OccursIn parts := by
  induction parts generalizing position with
  | nil => simp [marksFrom, lonesFrom]
  | cons piece rest ih =>
      have hcons : o.OccursIn (piece :: rest) ↔ o.OccursIn [piece] ∨ o.OccursIn rest :=
        @occursIn_append o [piece] rest
      have hmarks := marksFrom_append (o := o) position [piece] rest
      rw [List.singleton_append] at hmarks
      rw [hmarks, List.append_eq_nil_iff, ih, hcons, not_or, and_congr_left_iff]
      intro _
      cases piece with
      | group first inside last => simp [marksFrom, lonesFrom, OccursIn, operator?]
      | lone symbol =>
          rw [marksFrom, lonesFrom, lonesFrom, List.filterMap_eq_nil_iff]
          simp [markAt_eq_none_iff]

/-- A mark splits the pieces, and the marks before and after it are those of the
two sides. -/
theorem marksFrom_eq_append {position place : Nat} {earlier later : List (Nat × Operator)}
    (h : o.marksFrom position parts = earlier ++ (place, entry) :: later) :
    ∃ before after, o.Splits parts before entry after ∧
      place = position + (join before).length ∧ earlier = o.marksFrom position before ∧
      later = o.marksFrom (place + 1) after := by
  obtain ⟨first, second, hlones, hearlier, hsecond⟩ := List.filterMap_eq_append_iff.mp h
  obtain ⟨skipped, ⟨found, symbol⟩, rest, rfl, hskipped, hmark, hlater⟩ :=
    List.filterMap_eq_cons_iff.mp hsecond
  rw [← List.append_assoc] at hlones
  obtain ⟨before, after, rfl, hfound, hbefore, hafter⟩ := lonesFrom_eq_append hlones
  obtain ⟨operator, hoperator, hsame⟩ := Option.map_eq_some_iff.mp hmark
  obtain ⟨hsymbol, hoperation⟩ := Option.filter_eq_some_iff.mp hoperator
  cases hsame
  obtain ⟨length, hlone⟩ := @eq_lone_of_operator? (.lone symbol) _ hsymbol
  refine ⟨before, after, ⟨⟨length, by rw [hlone]⟩, of_decide_eq_true hoperation⟩, hfound, ?_, ?_⟩
  · rw [marksFrom, ← hbefore, List.filterMap_append, hearlier,
      List.filterMap_eq_nil_iff.mpr hskipped, List.append_nil]
  · rw [marksFrom, ← hafter, hlater]

theorem defect?_eq_none_iff :
    o.defect? = none ↔
      (o.arity = 1 ∧ o.placement ≠ .between) ∨ (o.arity = 2 ∧ o.placement = .between) := by
  unfold defect?
  cases o.placement <;> split <;> simp_all

/-- An operator of one operand is looked for from the left. -/
theorem direction_of_ne_between (hdefect : o.defect? = none) (h : o.placement ≠ .between) :
    o.direction = .forward := by
  rcases defect?_eq_none_iff.mp hdefect with ⟨harity, -⟩ | ⟨-, hbetween⟩
  · simp [direction, groupsFromLeft, harity]
  · exact absurd hbetween h

/-- The occurrence that a cut is taken at, and the ones that were passed over. -/
theorem cut?_eq_ok_iff_find? {slice : List Symbol} {cut : Cut} :
    o.cut? slice = some (.ok cut) ↔ o.defect? = none ∧ ∃ place earlier later,
      o.occurrences slice = earlier ++ place :: later ∧
        o.usableAt slice.length place.1 = true ∧
        (∀ other ∈ earlier, o.usableAt slice.length other.1 = false) ∧
        cut = o.cutAt slice place := by
  unfold cut?
  split
  · rename_i hnone
    simp [hnone]
  · rename_i hdefect
    simp [hdefect]
  · rename_i hsome hdefect
    rw [hsome, hdefect, Option.map_eq_some_iff]
    simp only [firstUsable?, List.find?_eq_some_iff_append, Except.ok.injEq, true_and,
      Bool.not_eq_true']
    constructor
    · rintro ⟨place, ⟨husable, earlier, later, hsplit, hearlier⟩, rfl⟩
      exact ⟨place, earlier, later, hsplit, husable, hearlier, rfl⟩
    · rintro ⟨place, earlier, later, hsplit, husable, hearlier, rfl⟩
      exact ⟨place, ⟨husable, earlier, later, hsplit, hearlier⟩, rfl⟩

/-- An entry of the list of occurrences splits the pieces, and nothing precedes
it exactly if a scan meets it first. -/
theorem splits_of_occurrences {slice : List Symbol} {place : Nat}
    {earlier later : List (Nat × Operator)}
    (h : o.occurrences slice = earlier ++ (place, entry) :: later) :
    ∃ before after, o.Splits (pieces slice) before entry after ∧ place = (join before).length ∧
      (earlier = [] ↔ o.MeetsFirst before after) := by
  rw [occurrences_eq] at h
  unfold MeetsFirst
  by_cases hleft : o.groupsFromLeft = true
  · have hdirection : o.direction = .backward := by simp [direction, hleft]
    rw [hdirection, Direction.orient, List.reverse_eq_iff] at h
    simp only [List.reverse_append, List.reverse_cons, List.append_assoc,
      List.singleton_append] at h
    obtain ⟨before, after, hsplits, hplace, -, hearlier⟩ := marksFrom_eq_append h
    refine ⟨before, after, hsplits, by rw [hplace, Nat.zero_add], ?_⟩
    rw [if_pos hleft, ← marksFrom_eq_nil_iff, ← hearlier, List.reverse_eq_nil_iff]
  · have hdirection : o.direction = .forward := by simp [direction, hleft]
    rw [hdirection, Direction.orient] at h
    obtain ⟨before, after, hsplits, hplace, hearlier, -⟩ := marksFrom_eq_append h
    refine ⟨before, after, hsplits, by rw [hplace, Nat.zero_add], ?_⟩
    rw [if_neg hleft, ← marksFrom_eq_nil_iff, ← hearlier]

/-- Every split of the pieces is among the occurrences. Those found before it
lie to its left if the scan runs forward. -/
theorem occurrences_of_splits {slice : List Symbol}
    (h : o.Splits (pieces slice) before entry after) :
    ∃ earlier later, o.occurrences slice = earlier ++ ((join before).length, entry) :: later ∧
      (earlier = [] ↔ o.MeetsFirst before after) ∧
      (o.direction = .forward → ∀ other ∈ earlier, other.1 < (join before).length) := by
  obtain ⟨⟨length, hparts⟩, hoperation⟩ := h
  have hmarks := @marksFrom_split o entry before after hoperation 0 length
  rw [← hparts, Nat.zero_add] at hmarks
  rw [occurrences_eq, hmarks]
  unfold MeetsFirst
  by_cases hleft : o.groupsFromLeft = true
  · have hdirection : o.direction = .backward := by simp [direction, hleft]
    rw [hdirection, Direction.orient, List.reverse_append, List.reverse_cons, List.append_assoc,
      List.singleton_append, if_pos hleft]
    refine ⟨_, _, rfl, ?_, by simp⟩
    rw [List.reverse_eq_nil_iff, marksFrom_eq_nil_iff]
  · have hdirection : o.direction = .forward := by simp [direction, hleft]
    rw [hdirection, Direction.orient, if_neg hleft]
    refine ⟨_, _, rfl, marksFrom_eq_nil_iff, ?_⟩
    intro _ other member
    obtain ⟨⟨place, symbol⟩, hlone, hmark⟩ := List.mem_filterMap.mp member
    obtain ⟨found, -, rfl⟩ := Option.map_eq_some_iff.mp hmark
    have hbound := lt_of_mem_lonesFrom hlone
    rwa [Nat.zero_add] at hbound

theorem usableAt_unique {length first second : Nat} (hunary : o.placement ≠ .between)
    (hfirst : o.usableAt length first = true) (hsecond : o.usableAt length second = true) :
    first = second := by
  unfold usableAt at hfirst hsecond
  cases hplacement : o.placement with
  | before =>
      simp only [hplacement, decide_eq_true_eq] at hfirst hsecond
      omega
  | after =>
      simp only [hplacement, decide_eq_true_eq] at hfirst hsecond
      omega
  | between => exact absurd hplacement hunary

/-- At the ends of a slice, position and pieces agree on whether an operator of
one operand is usable. -/
theorem usableAt_iff_accepts {slice : List Symbol}
    (h : o.Splits (pieces slice) before entry after) (hunary : o.placement ≠ .between) :
    o.usableAt slice.length (join before).length = true ↔ o.Accepts before after := by
  obtain ⟨length, hsymbols⟩ := h.slice_eq
  have hslice : slice.length = (join before).length + 1 + (join after).length := by
    rw [hsymbols, List.length_append, List.length_cons]
    omega
  have hempty (side : List Piece) : (join side).length = 0 ↔ side = [] :=
    ⟨fun hzero => join_eq_nil (List.eq_nil_of_length_eq_zero hzero), fun hnil => by simp [hnil]⟩
  unfold usableAt Accepts
  cases hplacement : o.placement with
  | before => simp [← hempty before]
  | after =>
      simp only [← hempty after, decide_eq_true_eq, hslice]
      omega
  | between => exact absurd hplacement hunary

/-- A slice is cut around an operator exactly at the occurrence that is
accepted. -/
theorem cut?_eq_ok_iff {slice : List Symbol} {cut : Cut} :
    o.cut? slice = some (.ok cut) ↔ o.defect? = none ∧ ∃ before entry after,
      o.Splits (pieces slice) before entry after ∧ o.Accepts before after ∧
        cut = ⟨o, join before, entry, join after⟩ := by
  rw [cut?_eq_ok_iff_find?]
  refine and_congr_right fun hdefect => ?_
  have hcut {before after : List Piece} {entry : Operator}
      (h : o.Splits (pieces slice) before entry after) :
      o.cutAt slice ((join before).length, entry) = ⟨o, join before, entry, join after⟩ := by
    obtain ⟨length, hslice⟩ := h.slice_eq
    simp [cutAt, hslice]
  by_cases hbetween : o.placement = .between
  · have husable (place : Nat) : o.usableAt slice.length place = true := by
      simp [usableAt, hbetween]
    simp only [husable, Accepts, hbetween]
    constructor
    · rintro ⟨⟨place, entry⟩, earlier, later, hfound, -, hearlier, rfl⟩
      have hnil : earlier = [] := List.eq_nil_iff_forall_not_mem.mpr fun other member => by
        simpa using hearlier other member
      obtain ⟨before, after, hsplits, rfl, hfirst⟩ := splits_of_occurrences hfound
      exact ⟨before, entry, after, hsplits, hfirst.mp hnil, hcut hsplits⟩
    · rintro ⟨before, entry, after, hsplits, hfirst, rfl⟩
      obtain ⟨earlier, later, hfound, hearlier, -⟩ := occurrences_of_splits hsplits
      refine ⟨_, earlier, later, hfound, trivial, ?_, (hcut hsplits).symm⟩
      simp [hearlier.mpr hfirst]
  · constructor
    · rintro ⟨⟨place, entry⟩, earlier, later, hfound, husable, -, rfl⟩
      obtain ⟨before, after, hsplits, rfl, -⟩ := splits_of_occurrences hfound
      exact ⟨before, entry, after, hsplits, (usableAt_iff_accepts hsplits hbetween).mp husable,
        hcut hsplits⟩
    · rintro ⟨before, entry, after, hsplits, haccepts, rfl⟩
      obtain ⟨earlier, later, hfound, -, hleft⟩ := occurrences_of_splits hsplits
      refine ⟨_, earlier, later, hfound, (usableAt_iff_accepts hsplits hbetween).mpr haccepts, ?_,
        (hcut hsplits).symm⟩
      intro other member
      have hother := hleft (direction_of_ne_between hdefect hbetween) other member
      have husable := (usableAt_iff_accepts hsplits hbetween).mpr haccepts
      rw [Bool.eq_false_iff]
      intro hsecond
      have hsame := usableAt_unique hbetween hsecond husable
      omega

theorem occurrences_eq_nil_iff {slice : List Symbol} :
    o.occurrences slice = [] ↔ ¬ o.OccursIn (pieces slice) := by
  rw [occurrences_eq, ← @marksFrom_eq_nil_iff o (pieces slice) 0]
  cases o.direction <;> simp [Direction.orient]

/-- An operator that cannot be applied fails wherever its operation occurs. -/
theorem cut?_eq_error_iff {slice : List Symbol} {error : EvalError} :
    o.cut? slice = some (.error error) ↔
      o.OccursIn (pieces slice) ∧ o.defect? = some error := by
  unfold cut?
  split
  · rename_i hnone
    simp [occurrences_eq_nil_iff.mp hnone]
  · rename_i first rest found hsome hdefect
    have hoccurs : o.OccursIn (pieces slice) := by
      apply Classical.byContradiction
      intro habsent
      simp [occurrences_eq_nil_iff.mpr habsent] at hsome
    simp [hoccurs, hdefect]
  · rename_i hdefect
    simp [hdefect]

/-- An operator between its operands has a cut in every slice in which it
occurs. -/
theorem cut?_ne_none_of_between {slice : List Symbol} (hbetween : o.placement = .between)
    (h : o.OccursIn (pieces slice)) : o.cut? slice ≠ none := by
  unfold cut?
  split
  · rename_i hnone
    exact absurd h (occurrences_eq_nil_iff.mp hnone)
  · simp
  · simp [firstUsable?, usableAt, hbetween]

theorem occursIn_of_cut?_ne_none {slice : List Symbol} (h : o.cut? slice ≠ none) :
    o.OccursIn (pieces slice) := by
  apply Classical.byContradiction
  intro habsent
  simp [cut?, occurrences_eq_nil_iff.mpr habsent] at h

end Operator

end Calculator
