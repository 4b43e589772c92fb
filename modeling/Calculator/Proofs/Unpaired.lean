import Calculator.Cut
import Calculator.Proofs.Partner

/-!
The positions that a scan looks at. A scan passes over every span that a bracket
opens in its direction, so it looks at exactly the positions that belong to no
bracket pair: forward in ascending order, backward at the same ones in descending
order, whether the list is balanced or not. Done by position, with every
subtraction and every access checked, it takes no step past the end of the list.
-/

namespace Calculator

open Piece

/-- Whether a position belongs to a bracket pair, as one of its two brackets or
as a place between them. -/
def IsPaired (symbols : List Symbol) (place : Nat) : Prop :=
  ∃ i j, PairAt symbols i j ∧ i ≤ place ∧ place ≤ j

namespace Piece

variable {position place : Nat} {symbol : Symbol} {parts : List Piece}

/-- The lone pieces are found behind the symbols of the pieces before them. -/
theorem mem_lonesFrom_iff :
    (place, symbol) ∈ lonesFrom position parts ↔ ∃ before after,
      parts = before ++ .lone symbol :: after ∧ place = position + (join before).length := by
  constructor
  · intro h
    obtain ⟨earlier, later, hsplit⟩ := List.append_of_mem h
    obtain ⟨before, after, hparts, hplace, -, -⟩ := lonesFrom_eq_append hsplit
    exact ⟨before, after, hparts, hplace⟩
  · rintro ⟨before, after, rfl, rfl⟩
    rw [lonesFrom_append]
    exact List.mem_append_right _ List.mem_cons_self

theorem le_of_mem_lonesFrom (h : (place, symbol) ∈ lonesFrom position parts) :
    position ≤ place := by
  obtain ⟨before, after, -, rfl⟩ := mem_lonesFrom_iff.mp h
  exact Nat.le_add_right _ _

theorem pairwise_lonesFrom (position : Nat) (parts : List Piece) :
    (lonesFrom position parts).Pairwise fun earlier later => earlier.1 < later.1 := by
  induction parts generalizing position with
  | nil => exact List.Pairwise.nil
  | cons piece rest ih =>
      cases piece with
      | lone symbol =>
          refine List.pairwise_cons.mpr ⟨?_, ih (position + 1)⟩
          rintro ⟨place, found⟩ later
          exact le_of_mem_lonesFrom later
      | group first inside last => exact ih _

/-- Every position of a list lies in one of its pieces. -/
theorem exists_piece_at (h : place < (join parts).length) :
    ∃ before piece after, parts = before ++ piece :: after ∧ (join before).length ≤ place ∧
      place < (join before).length + piece.symbols.length := by
  induction parts generalizing place with
  | nil => simp at h
  | cons piece rest ih =>
      have hjoin (others : List Piece) : (join (piece :: others)).length =
          piece.symbols.length + (join others).length := by
        simp [join]
      rw [hjoin] at h
      by_cases hfirst : place < piece.symbols.length
      · exact ⟨[], piece, rest, rfl, Nat.zero_le _, by simpa using hfirst⟩
      · obtain ⟨later, rfl⟩ := Nat.exists_eq_add_of_le (Nat.le_of_not_lt hfirst)
        obtain ⟨before, found, after, rfl, hlow, hhigh⟩ := ih (Nat.lt_of_add_lt_add_left h)
        refine ⟨piece :: before, found, after, rfl, ?_, ?_⟩
        · rw [hjoin]
          omega
        · rw [hjoin]
          omega

end Piece

section Unpaired

variable {symbols rest : List Symbol} {symbol found : Symbol} {place : Nat}

/-- A symbol in front can pair up with a lone piece, but it makes no symbol lone. -/
theorem mem_lones_of_cons (h : (place + 1, found) ∈ lonesFrom 0 (pieces (symbol :: rest))) :
    (place, found) ∈ lonesFrom 0 (pieces rest) := by
  have hshift {start : Nat} {parts : List Piece}
      (h : (place + 1, found) ∈ lonesFrom (start + 1) parts) :
      (place, found) ∈ lonesFrom start parts := by
    rw [Nat.add_comm start, lonesFrom_add 1 start] at h
    obtain ⟨⟨place', found'⟩, member, hsame⟩ := List.mem_map.mp h
    simp only [Prod.mk.injEq] at hsame
    obtain ⟨hplace, rfl⟩ := hsame
    obtain rfl : place' = place := by omega
    exact member
  rw [pieces_cons] at h
  rcases prepend_cases symbol (pieces rest) with ⟨hlone, -⟩ |
    ⟨between, last, others, hparts, -, -, -, hgroup⟩
  · rw [hlone, lonesFrom, List.mem_cons, Prod.mk.injEq] at h
    rcases h with ⟨hplace, -⟩ | later
    · omega
    · exact hshift later
  · rw [hgroup, lonesFrom, Nat.zero_add] at h
    rw [hparts, lonesFrom_append, lonesFrom, Nat.zero_add]
    exact List.mem_append_right _ (List.mem_cons_of_mem _ (hshift h))

theorem mem_lones_of_append {front : List Symbol}
    (h : (front.length + place, found) ∈ lonesFrom 0 (pieces (front ++ rest))) :
    (place, found) ∈ lonesFrom 0 (pieces rest) := by
  induction front with
  | nil => simpa using h
  | cons first front ih =>
      rw [List.length_cons, Nat.add_right_comm] at h
      exact ih (mem_lones_of_cons h)

/-- A lone piece belongs to no pair. -/
theorem not_isPaired_of_mem_lones (h : (place, found) ∈ lonesFrom 0 (pieces symbols)) :
    ¬ IsPaired symbols place := by
  rintro ⟨i, j, hpair, hlow, hhigh⟩
  obtain ⟨before, first, inside, last, after, rfl, hfirst, hinside, hlast, rfl, rfl⟩ :=
    pairAt_iff.mp hpair
  obtain ⟨offset, rfl⟩ := Nat.exists_eq_add_of_le hlow
  have hspan := mem_lones_of_append h
  rw [pieces_group_append hfirst hinside hlast, lonesFrom] at hspan
  have := le_of_mem_lonesFrom hspan
  omega

theorem isPaired_of_group {before after : List Piece} {first last : Symbol}
    {inside : List Symbol} (h : pieces symbols = before ++ .group first inside last :: after)
    (hlow : (join before).length ≤ place)
    (hhigh : place ≤ (join before).length + (inside.length + 1)) : IsPaired symbols place := by
  obtain ⟨hfirst, hinside, hlast⟩ :=
    (isNormal_pieces symbols).groups first inside last (by simp [h])
  have hsymbols : symbols = join before ++ first :: (inside ++ last :: join after) := by
    rw [← join_pieces symbols, h, join_append, join_group]
  have hpair := pairAt_iff.mpr
    ⟨_, first, inside, last, _, hsymbols, hfirst, hinside, hlast, rfl, rfl⟩
  exact ⟨_, _, hpair, hlow, hhigh⟩

/-- The symbols that stand alone are those outside all pairs. -/
theorem mem_lones_iff :
    (place, symbol) ∈ lonesFrom 0 (pieces symbols) ↔
      symbols[place]? = some symbol ∧ ¬ IsPaired symbols place := by
  have hlone {before after : List Piece} {other : Symbol}
      (hparts : pieces symbols = before ++ .lone other :: after) :
      symbols[(join before).length]? = some other := by
    rw [← join_pieces symbols, hparts, join_append,
      List.getElem?_append_right (Nat.le_refl _), Nat.sub_self]
    rfl
  constructor
  · intro h
    obtain ⟨before, after, hparts, hplace⟩ := mem_lonesFrom_iff.mp h
    rw [Nat.zero_add] at hplace
    exact ⟨hplace ▸ hlone hparts, not_isPaired_of_mem_lones h⟩
  · rintro ⟨hsymbol, hunpaired⟩
    obtain ⟨hlt, -⟩ := List.getElem?_eq_some_iff.mp hsymbol
    rw [← join_pieces symbols] at hlt
    obtain ⟨before, piece, after, hparts, hlow, hhigh⟩ := exists_piece_at hlt
    cases piece with
    | lone other =>
        have hplace : place = (join before).length := Nat.le_antisymm (Nat.le_of_lt_succ hhigh) hlow
        have hsame := hlone hparts
        rw [← hplace, hsymbol, Option.some.injEq] at hsame
        exact mem_lonesFrom_iff.mpr ⟨before, after, hsame ▸ hparts, by rw [hplace, Nat.zero_add]⟩
    | group first inside last =>
        have hend : place ≤ (join before).length + (inside.length + 1) := by
          simp only [Piece.symbols, List.length_cons, List.length_append, List.length_nil] at hhigh
          omega
        exact absurd (isPaired_of_group hparts hlow hend) hunpaired

/-- A scan in either direction looks at the positions outside all pairs. -/
theorem mem_outside_iff {direction : Direction} :
    (place, symbol) ∈ outside direction symbols ↔
      symbols[place]? = some symbol ∧ ¬ IsPaired symbols place := by
  cases direction with
  | forward => rw [outside_forward, mem_lones_iff]
  | backward => rw [outside_backward, List.mem_reverse, mem_lones_iff]

theorem pairwise_outside_forward (symbols : List Symbol) :
    ((outside .forward symbols).map Prod.fst).Pairwise (· < ·) := by
  rw [outside_forward, List.pairwise_map]
  exact pairwise_lonesFrom 0 (pieces symbols)

theorem pairwise_outside_backward (symbols : List Symbol) :
    ((outside .backward symbols).map Prod.fst).Pairwise (· > ·) := by
  rw [outside_backward, List.map_reverse, List.pairwise_reverse, List.pairwise_map]
  exact pairwise_lonesFrom 0 (pieces symbols)

end Unpaired

def seek {α β : Type} (look : α → Option β) : List α → List α × Option β
  | [] => ([], none)
  | entry :: rest =>
      match look entry with
      | some found => ([entry], some found)
      | none => (entry :: (seek look rest).1, (seek look rest).2)

section Seek

variable {α β : Type}

theorem snd_seek (look : α → Option β) (entries : List α) :
    (seek look entries).2 = entries.findSome? look := by
  induction entries with
  | nil => rfl
  | cons entry rest ih =>
      rw [seek, List.findSome?_cons]
      cases look entry with
      | some found => rfl
      | none => exact ih

theorem fst_seek_prefix (look : α → Option β) (entries : List α) :
    (seek look entries).1 <+: entries := by
  induction entries with
  | nil => exact List.prefix_rfl
  | cons entry rest ih =>
      rw [seek]
      cases look entry with
      | some found => exact ⟨rest, rfl⟩
      | none => exact List.cons_prefix_cons.mpr ⟨rfl, ih⟩

end Seek

def distance (i j : Nat) : Nat := i - j + (j - i)

/-- Looks at one position after the other until something is found, from a step
on. Where a span opens, the whole span is passed over. The result is what was
looked at and what was found. The steps must not pass the end of the list. -/
def scanFrom {α : Type} (direction : Direction) (symbols : List Symbol)
    (look : Nat × Symbol → Option α) (step : Nat) :
    Except IndexFault (List (Nat × Symbol) × Option α) :=
  if step < symbols.length then do
    let index ← direction.locate symbols.length step
    match ← searchPartner direction symbols index with
    | some partner =>
        scanFrom direction symbols look (step + (distance partner index + 1))
    | none => do
        let symbol ← symbolAt symbols index
        match look (index, symbol) with
        | some found => .ok ([(index, symbol)], some found)
        | none => do
            let (seen, found) ← scanFrom direction symbols look (step + 1)
            .ok ((index, symbol) :: seen, found)
  else if step = symbols.length then .ok ([], none)
  else .error .beyondEnd
termination_by symbols.length - step

section ScanFrom

variable {α : Type} {direction : Direction} {opener : Side} {symbols rest : List Symbol}
  {symbol : Symbol} {step span : Nat}

/-- A span ends within the list, and what stands behind it is scanned as before. -/
theorem outsideFrom_of_spanLength? (h : spanLength? opener symbol rest = some span)
    (position : Nat) : span ≤ rest.length ∧
      outsideFrom opener position 0 (symbol :: rest) =
        outsideFrom opener (position + (span + 1)) 0 (rest.drop span) := by
  have hstep : outsideFrom opener position 0 (symbol :: rest) =
      outsideFrom opener (position + 1) span rest := by
    rw [outsideFrom, h]
  unfold spanLength? at h
  split at h
  · obtain ⟨inside, last, after, rfl, -, -, rfl⟩ := closer?_eq_some_iff.mp h
    have hlength : (inside ++ [last]).length = 1 + inside.length := by
      simp [Nat.add_comm]
    have hrest : inside ++ last :: after = (inside ++ [last]) ++ after := by simp
    refine ⟨by rw [hrest, List.length_append]; omega, ?_⟩
    rw [hstep, hrest, ← hlength, outsideFrom_skip, List.drop_left]
    congr 1
    omega
  · contradiction

theorem partner?_position (h : step < symbols.length)
    (hdrop : (direction.orient symbols).drop step = symbol :: rest) :
    partner? direction symbols (direction.position symbols.length step) =
      (spanLength? direction.opening symbol rest).map fun span =>
        direction.position symbols.length (step + span) := by
  unfold partner?
  rw [if_pos (Direction.position_lt h), Direction.position_position h, hdrop]

theorem Direction.distance_position {length : Nat} (h : step + span < length) :
    distance (direction.position length (step + span)) (direction.position length step) = span := by
  cases direction with
  | forward =>
      show step + span - step + (step - (step + span)) = span
      omega
  | backward =>
      show length - 1 - (step + span) - (length - 1 - step) +
        (length - 1 - step - (length - 1 - (step + span))) = span
      omega

/-- From every step on, the scan looks at what stands outside the spans ahead. -/
theorem scanFrom_eq (look : Nat × Symbol → Option α) (h : step ≤ symbols.length) :
    scanFrom direction symbols look step = .ok (seek look
      ((outsideFrom direction.opening step 0 ((direction.orient symbols).drop step)).map
        fun (step, symbol) => (direction.position symbols.length step, symbol))) := by
  induction hahead : symbols.length - step using Nat.strongRecOn generalizing step with
  | _ ahead ih =>
    subst hahead
    rw [scanFrom]
    rcases Nat.lt_or_eq_of_le h with hlt | hend
    · obtain ⟨symbol, hsymbol, hdrop⟩ := @exists_scanned direction symbols step hlt
      have hnext := @ih (symbols.length - (step + 1)) (by omega) (step + 1) hlt rfl
      rw [if_pos hlt, Direction.locate_eq hlt]
      simp only [bind, Except.bind, searchPartner_eq, partner?_position hlt hdrop]
      cases hspan : spanLength? direction.opening symbol
          ((direction.orient symbols).drop (step + 1)) with
      | some span =>
          obtain ⟨hshort, houtside⟩ := outsideFrom_of_spanLength? hspan step
          rw [List.length_drop, Direction.length_orient] at hshort
          rw [List.drop_drop, Nat.add_right_comm, Nat.add_assoc] at houtside
          simp only [Option.map_some]
          rw [Direction.distance_position (by omega), hdrop, houtside]
          exact ih _ (by omega) (by omega) rfl
      | none =>
          simp only [Option.map_none, hsymbol, hdrop, outsideFrom, hspan, List.map_cons, seek]
          cases look (direction.position symbols.length step, symbol) with
          | some found => rfl
          | none => simp only [hnext]
    · rw [if_neg (by omega), if_pos hend, hend, List.drop_eq_nil_of_le (by simp)]
      rfl

end ScanFrom

namespace Operator

def use (o : Operator) (slice : List Symbol) (place : Nat × Operator) :
    Option (Except EvalError Cut) :=
  match o.defect? with
  | some error => some (.error error)
  | none =>
      if o.usableAt slice.length place.1 then some (.ok (o.cutAt slice place)) else none

def look (o : Operator) (slice : List Symbol) : Nat × Symbol → Option (Except EvalError Cut)
  | (position, .operator entry _) =>
      if entry.operation = o.operation then o.use slice (position, entry) else none
  | _ => none

theorem cut?_eq_findSome?_use (o : Operator) (slice : List Symbol) :
    o.cut? slice = (o.occurrences slice).findSome? (o.use slice) := by
  unfold cut? use
  cases o.occurrences slice with
  | nil => rfl
  | cons first rest =>
      cases o.defect? with
      | some error => rfl
      | none =>
          dsimp only
          rw [firstUsable?, List.find?_eq_findSome?_guard, List.map_findSome?]
          congr 1
          funext place
          simp only [Function.comp_apply, Option.guard]
          split <;> rfl

/-- The operator cuts a list where the scan for it comes to an end. -/
theorem cut?_eq_findSome?_look (o : Operator) (slice : List Symbol) :
    o.cut? slice = (outside o.direction slice).findSome? (o.look slice) := by
  rw [cut?_eq_findSome?_use]
  unfold occurrences
  induction outside o.direction slice with
  | nil => rfl
  | cons entry rest ih =>
      obtain ⟨position, symbol⟩ := entry
      rw [List.findSome?_cons, ← ih, List.filterMap_cons]
      cases symbol with
      | operator entry length =>
          by_cases hsame : entry.operation = o.operation
          · simp only [look, Symbol.operator?, hsame, Option.filter_some, Option.map_some,
              decide_true, ↓reduceIte, List.findSome?_cons]
          · simp only [look, Symbol.operator?, hsame, Option.filter_some, Option.map_none,
              decide_false, Bool.false_eq_true, ↓reduceIte]
      | _ => rfl

end Operator

/-- The positions that a scan looks at are those that belong to no bracket pair,
forward in ascending order and backward in descending order. The scan by position
looks at them one after the other until something is found, without a fault, and
an operator cuts a list where the scan for it ends. -/
theorem scan_looks_at_unpaired (symbols : List Symbol) :
    (∀ direction place symbol, (place, symbol) ∈ outside direction symbols ↔
      symbols[place]? = some symbol ∧ ¬ IsPaired symbols place) ∧
    ((outside .forward symbols).map Prod.fst).Pairwise (· < ·) ∧
    ((outside .backward symbols).map Prod.fst).Pairwise (· > ·) ∧
    (∀ (α : Type) direction (look : Nat × Symbol → Option α),
      scanFrom direction symbols look 0 = .ok (seek look (outside direction symbols))) ∧
    ∀ o : Operator, ∃ seen, seen <+: outside o.direction symbols ∧
      scanFrom o.direction symbols (o.look symbols) 0 = .ok (seen, o.cut? symbols) := by
  have hscan (α : Type) (direction : Direction) (look : Nat × Symbol → Option α) :
      scanFrom direction symbols look 0 = .ok (seek look (outside direction symbols)) :=
    scanFrom_eq look (Nat.zero_le _)
  refine ⟨fun _ _ _ => mem_outside_iff, pairwise_outside_forward symbols,
    pairwise_outside_backward symbols, hscan, fun o => ?_⟩
  refine ⟨(seek (o.look symbols) (outside o.direction symbols)).1, fst_seek_prefix _ _, ?_⟩
  rw [hscan, o.cut?_eq_findSome?_look, ← snd_seek]

/-- In `)(1)+(2` a scan in either direction passes over the pair around the `1`. -/
example :
    let pair : BracketPair := ⟨.parenthesis, "parenthesis", "(", ")"⟩
    let plus : Operator := ⟨.add, "add", "+", 0, 2, .between, .left, none⟩
    let symbols : List Symbol :=
      [.bracket pair .closing 1, .bracket pair .opening 1, .number 1 1, .bracket pair .closing 1,
        .operator plus 1, .bracket pair .opening 1, .number 2 1]
    (outside .forward symbols).map Prod.fst = [0, 4, 5, 6] ∧
      (outside .backward symbols).map Prod.fst = [6, 5, 4, 0] := by
  decide

end Calculator
