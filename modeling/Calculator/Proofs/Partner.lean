import Calculator.Proofs.Scan
import Calculator.Proofs.WellNested

/-!
The partner of a bracket. A scan counts the spans that are open, and the bracket
at which it stops is the one that a balanced list parts from the bracket at which
it started, whatever stands around the two. Both directions therefore find the
same pairs. Searched for by position, with every subtraction and every access
checked, the partner is found without a fault.
-/

namespace Calculator

open Piece

/-- A list that closes as many spans as are open before it, and is balanced
apart from that. -/
inductive ClosesSpans (opener : Side) : Nat → List Symbol → Prop where
  | zero {symbols : List Symbol} (h : Balanced opener symbols) : ClosesSpans opener 0 symbols
  | succ {depth : Nat} {inside rest : List Symbol} {last : Symbol}
      (hinside : Balanced opener inside) (hlast : last.side? = some opener.facing)
      (hrest : ClosesSpans opener depth rest) :
      ClosesSpans opener (depth + 1) (inside ++ last :: rest)

section Scan

variable {opener : Side} {depth position place : Nat} {symbols rest : List Symbol}

theorem ClosesSpans.prepend (hsymbols : Balanced opener symbols)
    (h : ClosesSpans opener depth rest) : ClosesSpans opener depth (symbols ++ rest) := by
  cases h with
  | zero hrest => exact .zero (hsymbols.append hrest)
  | succ hinside hlast hrest =>
      rw [← List.append_assoc]
      exact .succ (hsymbols.append hinside) hlast hrest

theorem ClosesSpans.open {first : Symbol} (hfirst : first.side? = some opener)
    (h : ClosesSpans opener (depth + 1) rest) : ClosesSpans opener depth (first :: rest) := by
  cases h with
  | @succ _ inside others last hinside hlast hothers =>
      have hspan := hothers.prepend (hinside.wrap hfirst hlast)
      simpa using hspan

/-- A scan stops at the first bracket that closes more spans than it has opened. -/
theorem exists_of_closer? (h : closer? opener depth position rest = some place) :
    ∃ front last after, rest = front ++ last :: after ∧ ClosesSpans opener depth front ∧
      last.side? = some opener.facing ∧ place = position + front.length := by
  induction rest generalizing depth position with
  | nil => contradiction
  | cons symbol rest ih =>
      rcases symbol.side?_cases opener with hplain | hopener | hfacing
      · rw [closer?_plain hplain] at h
        obtain ⟨front, last, after, rfl, hfront, hlast, rfl⟩ := ih h
        exact ⟨symbol :: front, last, after, rfl, hfront.prepend (.plain hplain .nil), hlast,
          by rw [List.length_cons]; omega⟩
      · rw [closer?_opener hopener] at h
        obtain ⟨front, last, after, rfl, hfront, hlast, rfl⟩ := ih h
        exact ⟨symbol :: front, last, after, rfl, hfront.open hopener, hlast,
          by rw [List.length_cons]; omega⟩
      · -- The bracket ends the scan if no inner span is open, and the inner span otherwise.
        cases depth with
        | zero =>
            rw [closer?_facing_zero hfacing] at h
            cases h
            exact ⟨[], symbol, rest, rfl, .zero .nil, hfacing, rfl⟩
        | succ depth =>
            rw [closer?_facing_succ hfacing] at h
            obtain ⟨front, last, after, rfl, hfront, hlast, rfl⟩ := ih h
            exact ⟨symbol :: front, last, after, rfl, .succ .nil hfacing hfront, hlast,
              by rw [List.length_cons]; omega⟩

/-- The scan from an opening bracket stops behind a balanced list. -/
theorem closer?_eq_some_iff :
    closer? opener 0 position rest = some place ↔ ∃ inside last after,
      rest = inside ++ last :: after ∧ Balanced opener inside ∧
        last.side? = some opener.facing ∧ place = position + inside.length := by
  constructor
  · intro h
    obtain ⟨inside, last, after, hrest, hinside, hlast, hplace⟩ := exists_of_closer? h
    cases hinside with
    | zero hbalanced => exact ⟨inside, last, after, hrest, hbalanced, hlast, hplace⟩
  · rintro ⟨inside, last, after, rfl, hinside, hlast, rfl⟩
    rw [hinside.closer?_append, closer?_facing_zero hlast]

theorem closer?_add (start : Nat) :
    closer? opener depth (start + position) rest =
      (closer? opener depth position rest).map (start + ·) := by
  induction rest generalizing depth position with
  | nil => rfl
  | cons symbol rest ih =>
      rcases symbol.side?_cases opener with hplain | hopener | hfacing
      · rw [closer?_plain hplain, closer?_plain hplain, Nat.add_assoc, ih]
      · rw [closer?_opener hopener, closer?_opener hopener, Nat.add_assoc, ih]
      · cases depth with
        | zero => rw [closer?_facing_zero hfacing, closer?_facing_zero hfacing, Option.map_some]
        | succ depth => rw [closer?_facing_succ hfacing, closer?_facing_succ hfacing,
            Nat.add_assoc, ih]

end Scan

section Positions

variable {direction : Direction} {symbols : List Symbol} {length step index place : Nat}

@[simp] theorem Direction.length_orient (direction : Direction) (symbols : List Symbol) :
    (direction.orient symbols).length = symbols.length := by
  cases direction <;> simp [orient]

theorem Direction.position_lt (h : step < length) : direction.position length step < length := by
  cases direction with
  | forward => exact h
  | backward =>
      show length - 1 - step < length
      omega

/-- The step at which a position is scanned is found in the same way as the
position of a step. -/
theorem Direction.position_position (h : step < length) :
    direction.position length (direction.position length step) = step := by
  cases direction with
  | forward => rfl
  | backward =>
      show length - 1 - (length - 1 - step) = step
      omega

theorem Direction.getElem?_position (h : step < symbols.length) :
    symbols[direction.position symbols.length step]? = (direction.orient symbols)[step]? := by
  cases direction with
  | forward => rfl
  | backward => exact (List.getElem?_reverse h).symm

/-- In the order of the scan, a bracket and its partner enclose a balanced list. -/
theorem partner?_eq_some_iff :
    partner? direction symbols index = some place ↔ ∃ before first inside last after,
      direction.orient symbols = before ++ first :: (inside ++ last :: after) ∧
        first.side? = some direction.opening ∧ Balanced direction.opening inside ∧
        last.side? = some direction.opening.facing ∧
        index = direction.position symbols.length before.length ∧
        place = direction.position symbols.length (before.length + (inside.length + 1)) := by
  constructor
  · intro h
    unfold partner? at h
    split at h
    · rename_i hindex
      generalize hstep : direction.position symbols.length index = step at h
      have hposition : direction.position symbols.length step = index := by
        rw [← hstep, Direction.position_position hindex]
      have hlength : ((direction.orient symbols).take step).length = step := by
        have hlt := @Direction.position_lt direction _ _ hindex
        rw [List.length_take, Direction.length_orient]
        omega
      split at h
      · contradiction
      · rename_i first rest hdrop
        obtain ⟨span, hspan, rfl⟩ := Option.map_eq_some_iff.mp h
        unfold spanLength? at hspan
        split at hspan
        · rename_i hfirst
          obtain ⟨inside, last, after, rfl, hinside, hlast, rfl⟩ := closer?_eq_some_iff.mp hspan
          refine ⟨(direction.orient symbols).take step, first, inside, last, after, ?_, hfirst,
            hinside, hlast, ?_, ?_⟩
          · rw [← hdrop, List.take_append_drop]
          · rw [hlength, hposition]
          · rw [hlength, Nat.add_comm 1]
        · contradiction
    · contradiction
  · rintro ⟨before, first, inside, last, after, hsymbols, hfirst, hinside, hlast, rfl, rfl⟩
    have hlt : before.length < symbols.length := by
      rw [← direction.length_orient symbols, hsymbols, List.length_append, List.length_cons]
      omega
    unfold partner?
    rw [if_pos (Direction.position_lt hlt), Direction.position_position hlt, hsymbols,
      List.drop_left]
    simp only [spanLength?_of_balanced hfirst hinside hlast, Option.map_some]

end Positions

/-- The brackets at two positions pair up: the earlier one opens, the later one
closes, and between them every bracket is closed again. -/
structure PairAt (symbols : List Symbol) (i j : Nat) : Prop where
  lt : i < j
  lt_length : j < symbols.length
  opening : symbols[i]?.bind Symbol.side? = some .opening
  closing : symbols[j]?.bind Symbol.side? = some .closing
  between : WellNested ((symbols.take j).drop (i + 1))

section Pairs

variable {symbols : List Symbol} {i j : Nat}

theorem pairAt_iff :
    PairAt symbols i j ↔ ∃ before first inside last after,
      symbols = before ++ first :: (inside ++ last :: after) ∧ first.side? = some .opening ∧
        Balanced .opening inside ∧ last.side? = some .closing ∧ i = before.length ∧
        j = before.length + (inside.length + 1) := by
  constructor
  · rintro ⟨hlt, hlength, hopening, hclosing, hbetween⟩
    obtain ⟨first, hfirst, hfirstSide⟩ := Option.bind_eq_some_iff.mp hopening
    obtain ⟨last, hlast, hlastSide⟩ := Option.bind_eq_some_iff.mp hclosing
    obtain ⟨hi, rfl⟩ := List.getElem?_eq_some_iff.mp hfirst
    obtain ⟨hj, rfl⟩ := List.getElem?_eq_some_iff.mp hlast
    -- The list is cut at the later bracket, and what stands before that at the earlier one.
    have hfront : (symbols.take j).take i = symbols.take i := by
      rw [List.take_take, Nat.min_eq_left (by omega)]
    have hsplit : symbols.take j =
        symbols.take i ++ symbols[i] :: (symbols.take j).drop (i + 1) := by
      have htake : i < (symbols.take j).length := by
        rw [List.length_take]
        omega
      rw [← hfront, ← List.getElem_take (h := htake), ← List.drop_eq_getElem_cons htake,
        List.take_append_drop]
    have hwhole : symbols = symbols.take j ++ symbols[j] :: symbols.drop (j + 1) := by
      rw [← List.drop_eq_getElem_cons hlength, List.take_append_drop]
    refine ⟨symbols.take i, symbols[i], (symbols.take j).drop (i + 1), symbols[j],
      symbols.drop (j + 1), ?_, hfirstSide, wellNested_iff_balanced.mp hbetween, hlastSide, ?_, ?_⟩
    · rw [hsplit, List.append_assoc, List.cons_append] at hwhole
      exact hwhole
    · rw [List.length_take]
      omega
    · rw [List.length_drop, List.length_take, List.length_take]
      omega
  · rintro ⟨before, first, inside, last, after, rfl, hfirst, hinside, hlast, rfl, rfl⟩
    have hfront : before ++ first :: (inside ++ last :: after) =
        (before ++ first :: inside) ++ last :: after := by
      simp
    have hlength : before.length + (inside.length + 1) = (before ++ first :: inside).length := by
      simp
    refine ⟨by omega, ?_, ?_, ?_, ?_⟩
    · simp only [List.length_append, List.length_cons]
      omega
    · rw [List.getElem?_append_right (Nat.le_refl _), Nat.sub_self]
      exact hfirst
    · rw [hfront, hlength, List.getElem?_append_right (Nat.le_refl _), Nat.sub_self]
      exact hlast
    · rw [hfront, hlength, List.take_left]
      simpa using hinside.wellNested

theorem partner?_forward_iff : partner? .forward symbols i = some j ↔ PairAt symbols i j := by
  rw [partner?_eq_some_iff, pairAt_iff]
  rfl

/-- Read backwards, the bracket that closes the span stands first. -/
theorem partner?_backward_iff : partner? .backward symbols j = some i ↔ PairAt symbols i j := by
  rw [partner?_eq_some_iff, pairAt_iff]
  constructor
  · rintro ⟨before, first, inside, last, after, hsymbols, hfirst, hinside, hlast, rfl, rfl⟩
    have hturned : symbols =
        after.reverse ++ last :: (inside.reverse ++ first :: before.reverse) := by
      rw [← List.reverse_reverse symbols]
      simp [show symbols.reverse = _ from hsymbols]
    refine ⟨after.reverse, last, inside.reverse, first, before.reverse, hturned, hlast,
      hinside.reverse, hfirst, ?_, ?_⟩
    · simp only [Direction.position, hturned, List.length_append, List.length_cons,
        List.length_reverse]
      omega
    · simp only [Direction.position, hturned, List.length_append, List.length_cons,
        List.length_reverse]
      omega
  · rintro ⟨before, first, inside, last, after, rfl, hfirst, hinside, hlast, rfl, rfl⟩
    refine ⟨after.reverse, last, inside.reverse, first, before.reverse, ?_, hlast,
      hinside.reverse, hfirst, ?_, ?_⟩
    · simp [Direction.orient]
    · simp only [Direction.position, List.length_append, List.length_cons, List.length_reverse]
      omega
    · simp only [Direction.position, List.length_append, List.length_cons, List.length_reverse]
      omega

/-- A slice is unwrapped exactly if a bracket pair encloses it. -/
theorem unwrap?_iff_enclosed {inner : List Symbol} :
    unwrap? symbols = some inner ↔ ∃ first last, symbols = first :: (inner ++ [last]) ∧
      first.side? = some .opening ∧ WellNested inner ∧ last.side? = some .closing := by
  rw [unwrap?_eq_some_iff]
  constructor
  · rintro ⟨first, last, hparts⟩
    obtain ⟨_, _, _, _, rfl, rfl, hinside, hsymbols⟩ := eq_of_pieces_eq_group hparts
    exact ⟨_, _, hsymbols, rfl, hinside.wellNested, rfl⟩
  · rintro ⟨first, last, rfl, hfirst, hinner, hlast⟩
    exact ⟨first, last, pieces_group_append hfirst (wellNested_iff_balanced.mp hinner) hlast []⟩

end Pairs

inductive IndexFault where
  | negative
  | beyondEnd
  deriving DecidableEq

def difference (whole part : Nat) : Except IndexFault Nat :=
  if part ≤ whole then .ok (whole - part) else .error .negative

def symbolAt (symbols : List Symbol) (position : Nat) : Except IndexFault Symbol :=
  match symbols[position]? with
  | some symbol => .ok symbol
  | none => .error .beyondEnd

/-- Where the `step`-th scanned symbol stands, one subtraction after the other. -/
def Direction.locate (length step : Nat) : Direction → Except IndexFault Nat
  | .forward => .ok step
  | .backward => do
      let last ← difference length 1
      difference last step

/-- Looks at one position after the other for the bracket that ends a span, with
the number of inner spans that are open. -/
def searchFrom (direction : Direction) (symbols : List Symbol) :
    (remaining depth step : Nat) → Except IndexFault (Option Nat)
  | 0, _, _ => .ok none
  | remaining + 1, depth, step => do
      let position ← direction.locate symbols.length step
      let symbol ← symbolAt symbols position
      if symbol.side? = some direction.opening then
        searchFrom direction symbols remaining (depth + 1) (step + 1)
      else if symbol.side? = some direction.opening.facing then
        if depth = 0 then .ok (some position)
        else do
          let depth ← difference depth 1
          searchFrom direction symbols remaining depth (step + 1)
      else searchFrom direction symbols remaining depth (step + 1)

def searchPartner (direction : Direction) (symbols : List Symbol) (index : Nat) :
    Except IndexFault (Option Nat) :=
  match symbols[index]? with
  | none => .ok none
  | some symbol =>
      if symbol.side? = some direction.opening then do
        let start ← direction.locate symbols.length index
        searchFrom direction symbols (symbols.length - (start + 1)) 0 (start + 1)
      else .ok none

section Search

variable {direction : Direction} {symbols : List Symbol} {length step : Nat}

theorem difference_eq {whole part : Nat} (h : part ≤ whole) :
    difference whole part = .ok (whole - part) := if_pos h

theorem Direction.locate_eq (h : step < length) :
    direction.locate length step = .ok (direction.position length step) := by
  cases direction with
  | forward => rfl
  | backward =>
      have hlast : difference length 1 = .ok (length - 1) := difference_eq (by omega)
      have hposition : difference (length - 1) step = .ok (length - 1 - step) :=
        difference_eq (by omega)
      rw [locate, hlast]
      exact hposition

theorem exists_scanned (h : step < symbols.length) :
    ∃ symbol, symbolAt symbols (direction.position symbols.length step) = .ok symbol ∧
      (direction.orient symbols).drop step =
        symbol :: (direction.orient symbols).drop (step + 1) := by
  have hstep : step < (direction.orient symbols).length := by
    rwa [Direction.length_orient]
  refine ⟨_, ?_, List.drop_eq_getElem_cons hstep⟩
  unfold symbolAt
  rw [Direction.getElem?_position h, List.getElem?_eq_getElem hstep]

/-- While steps remain, the search has scanned exactly the symbols before the
current step. -/
theorem searchFrom_eq {remaining : Nat} (h : step + remaining = symbols.length) (depth : Nat) :
    searchFrom direction symbols remaining depth step =
      .ok ((closer? direction.opening depth step ((direction.orient symbols).drop step)).map
        (direction.position symbols.length)) := by
  induction remaining generalizing depth step with
  | zero =>
      rw [List.drop_eq_nil_of_le (by simp; omega)]
      rfl
  | succ remaining ih =>
      have hlt : step < symbols.length := by omega
      obtain ⟨symbol, hsymbol, hdrop⟩ := @exists_scanned direction symbols step hlt
      have hnext (depth : Nat) := @ih (step + 1) (by omega) depth
      rw [searchFrom, Direction.locate_eq hlt, hdrop]
      simp only [bind, Except.bind, hsymbol]
      rcases symbol.side?_cases direction.opening with hplain | hopener | hfacing
      · rw [closer?_plain hplain, ← hnext]
        simp [hplain]
      · rw [closer?_opener hopener, ← hnext]
        simp [hopener]
      · cases depth with
        | zero =>
            rw [closer?_facing_zero hfacing]
            simp [hfacing]
        | succ depth =>
            have hdifference : difference (depth + 1) 1 = .ok depth := difference_eq (by omega)
            rw [closer?_facing_succ hfacing, ← hnext]
            simp [hfacing, hdifference]

/-- No position is computed from a negative difference and none lies outside the
list, and what is found is the partner. -/
theorem searchPartner_eq (direction : Direction) (symbols : List Symbol) (index : Nat) :
    searchPartner direction symbols index = .ok (partner? direction symbols index) := by
  unfold searchPartner partner?
  by_cases hindex : index < symbols.length
  · have hstart := @Direction.position_lt direction _ _ hindex
    have hsymbol := @Direction.getElem?_position direction symbols _ hstart
    rw [Direction.position_position hindex] at hsymbol
    rw [if_pos hindex, hsymbol, Direction.locate_eq hindex]
    generalize direction.position symbols.length index = start at hstart ⊢
    have hscanned : start < (direction.orient symbols).length := by
      rwa [Direction.length_orient]
    rw [List.getElem?_eq_getElem hscanned, List.drop_eq_getElem_cons hscanned]
    simp only [bind, Except.bind, spanLength?]
    split
    · have hsearch := @searchFrom_eq direction symbols (start + 1)
        (symbols.length - (start + 1)) (by omega) 0
      rw [hsearch, closer?_add, Option.map_map]
      rfl
    · rfl
  · rw [if_neg hindex, List.getElem?_eq_none (by omega)]

end Search

/-- The partner of a bracket is the bracket that it pairs up with, in both
directions and whether the list is balanced or not, so that the directions find
the same pairs. The search works for every position, also beyond the end of the
list. A list is unwrapped exactly if a pair encloses all of it. -/
theorem partner?_finds_exactly_pairs (symbols : List Symbol) :
    (∀ i j, partner? .forward symbols i = some j ↔ PairAt symbols i j) ∧
      (∀ i j, partner? .backward symbols j = some i ↔ PairAt symbols i j) ∧
      (∀ direction index,
        searchPartner direction symbols index = .ok (partner? direction symbols index)) ∧
      ∀ inner, unwrap? symbols = some inner ↔ ∃ first last,
        symbols = first :: (inner ++ [last]) ∧ first.side? = some .opening ∧
          WellNested inner ∧ last.side? = some .closing :=
  ⟨fun _ _ => partner?_forward_iff, fun _ _ => partner?_backward_iff,
    fun direction index => searchPartner_eq direction symbols index,
    fun _ => unwrap?_iff_enclosed⟩

/-- In `)(1)(` only the brackets around the number pair up. -/
example :
    let pair : BracketPair := ⟨.parenthesis, "parenthesis", "(", ")"⟩
    let symbols : List Symbol :=
      [.bracket pair .closing 1, .bracket pair .opening 1, .number 1 1, .bracket pair .closing 1,
        .bracket pair .opening 1]
    (List.range 6).map (partner? .forward symbols) = [none, some 3, none, none, none, none] ∧
      (List.range 6).map (partner? .backward symbols) = [none, none, none, some 1, none, none] := by
  decide

end Calculator
