import Calculator.Proofs.Pieces

/-!
What a scan of a list of symbols finds, in terms of its pieces. A slice is
unwrapped exactly if it is a single group. Scanning forward visits the lone
pieces from left to right and scanning backward visits the same pieces from
right to left, also where brackets have no partner.
-/

namespace Calculator

namespace Piece

/-- Nothing ends a span if no lone bracket faces its opener. -/
theorem closer?_join_eq_none {opener : Side} {parts : List Piece} (h : IsNormal opener parts)
    (hparts : ∀ piece ∈ parts, piece.loneSide? ≠ some opener.facing) (depth position : Nat) :
    closer? opener depth position (join parts) = none := by
  induction parts generalizing depth position with
  | nil => rfl
  | cons piece rest ih =>
      have hrest (depth position : Nat) : closer? opener depth position (join rest) = none :=
        ih h.tail (fun other member => hparts other (List.mem_cons_of_mem _ member)) depth position
      cases piece with
      | lone symbol =>
          rw [join_lone]
          rcases symbol.side?_cases opener with hplain | hopener | hfacing
          · rw [closer?_plain hplain, hrest]
          · rw [closer?_opener hopener, hrest]
          · exact absurd hfacing (hparts (.lone symbol) List.mem_cons_self)
      | group first inside last =>
          obtain ⟨hfirst, hinside, hlast⟩ := h.groups first inside last List.mem_cons_self
          have hjoin : join (.group first inside last :: rest) =
              first :: (inside ++ [last]) ++ join rest := by
            simp
          rw [hjoin, (hinside.wrap hfirst hlast).closer?_append, hrest]

theorem spanLength?_lone {opener : Side} {symbol : Symbol} {rest : List Piece}
    (h : IsNormal opener (.lone symbol :: rest)) :
    spanLength? opener symbol (join rest) = none := by
  unfold spanLength?
  split
  · rename_i hside
    exact closer?_join_eq_none h.tail (h.head_apart hside) 0 1
  · rfl

/-- The first bracket of a group opens a span that ends with the group. -/
theorem spanLength?_group {opener : Side} {first last : Symbol} {inside : List Symbol}
    {rest : List Piece} (h : IsNormal opener (.group first inside last :: rest)) :
    spanLength? opener first (inside ++ last :: join rest) = some (inside.length + 1) := by
  obtain ⟨hfirst, hinside, hlast⟩ := h.groups first inside last List.mem_cons_self
  exact spanLength?_of_balanced hfirst hinside hlast (join rest)

/-- A slice is unwrapped exactly if it is a single group. -/
theorem unwrap?_eq_some_iff {symbols inner : List Symbol} :
    unwrap? symbols = some inner ↔ ∃ first last, pieces symbols = [.group first inner last] := by
  have hnormal := isNormal_pieces symbols
  have hjoin := join_pieces symbols
  cases hparts : pieces symbols with
  | nil =>
      rw [hparts, join_nil] at hjoin
      subst hjoin
      simp [unwrap?]
  | cons piece rest =>
      rw [hparts] at hnormal hjoin
      cases piece with
      | lone symbol =>
          rw [join_lone] at hjoin
          subst hjoin
          simp [unwrap?, spanLength?_lone hnormal]
      | group first inside last =>
          rw [join_group] at hjoin
          subst hjoin
          rw [unwrap?, spanLength?_group hnormal]
          simp only [List.length_append, List.length_cons, Option.some.injEq]
          constructor
          · intro h
            split at h
            · rename_i hlength
              have hrest : rest = [] := join_eq_nil (List.eq_nil_of_length_eq_zero (by omega))
              subst hrest
              simp only [join_nil, List.dropLast_concat, Option.some.injEq] at h
              exact ⟨first, last, by rw [h]⟩
            · contradiction
          · rintro ⟨first', last', hsame⟩
            cases hsame
            simp

def lonesFrom : Nat → List Piece → List (Nat × Symbol)
  | _, [] => []
  | position, .lone symbol :: rest => (position, symbol) :: lonesFrom (position + 1) rest
  | position, .group _ inside _ :: rest => lonesFrom (position + (inside.length + 2)) rest

theorem length_join_lone (symbol : Symbol) (rest : List Piece) :
    (join (.lone symbol :: rest)).length = (join rest).length + 1 := by
  rw [join_lone, List.length_cons]

theorem length_join_group (first last : Symbol) (inside : List Symbol) (rest : List Piece) :
    (join (.group first inside last :: rest)).length =
      inside.length + 2 + (join rest).length := by
  rw [join_group, List.length_cons, List.length_append, List.length_cons]
  omega

theorem lonesFrom_append (position : Nat) (before after : List Piece) :
    lonesFrom position (before ++ after) =
      lonesFrom position before ++ lonesFrom (position + (join before).length) after := by
  induction before generalizing position with
  | nil => rfl
  | cons piece rest ih =>
      cases piece with
      | lone symbol =>
          rw [List.cons_append, lonesFrom, lonesFrom, ih, length_join_lone,
            Nat.add_comm (join rest).length, Nat.add_assoc, List.cons_append]
      | group first inside last =>
          rw [List.cons_append, lonesFrom, lonesFrom, ih, length_join_group, Nat.add_assoc position]

theorem lonesFrom_add (start position : Nat) (parts : List Piece) :
    lonesFrom (start + position) parts =
      (lonesFrom position parts).map fun (place, symbol) => (start + place, symbol) := by
  induction parts generalizing position with
  | nil => rfl
  | cons piece rest ih =>
      cases piece with
      | lone symbol => simp only [lonesFrom, Nat.add_assoc, ih, List.map_cons]
      | group first inside last => simp only [lonesFrom, Nat.add_assoc, ih]

theorem lt_of_mem_lonesFrom {position place : Nat} {symbol : Symbol} {parts : List Piece}
    (h : (place, symbol) ∈ lonesFrom position parts) : place < position + (join parts).length := by
  induction parts generalizing position with
  | nil => simp [lonesFrom] at h
  | cons piece rest ih =>
      cases piece with
      | lone first =>
          rw [length_join_lone]
          rcases List.mem_cons.mp h with same | later
          · cases same
            omega
          · have := ih later
            omega
      | group first inside last =>
          have := ih h
          rw [length_join_group]
          omega

/-- Every entry of the list of lone pieces splits the pieces. -/
theorem lonesFrom_eq_append {position place : Nat} {symbol : Symbol} {parts : List Piece}
    {earlier later : List (Nat × Symbol)}
    (h : lonesFrom position parts = earlier ++ (place, symbol) :: later) :
    ∃ before after, parts = before ++ .lone symbol :: after ∧
      place = position + (join before).length ∧ earlier = lonesFrom position before ∧
      later = lonesFrom (place + 1) after := by
  induction parts generalizing position earlier with
  | nil => simp [lonesFrom] at h
  | cons piece rest ih =>
      cases piece with
      | lone first =>
          rw [lonesFrom, List.cons_eq_append_iff] at h
          rcases h with ⟨rfl, hhead⟩ | ⟨others, rfl, htail⟩
          · obtain ⟨hplace, rfl⟩ := List.cons.inj hhead
            cases hplace
            exact ⟨[], rest, rfl, rfl, rfl, rfl⟩
          · obtain ⟨before, after, rfl, hplace, rfl, hlater⟩ := ih htail
            refine ⟨.lone first :: before, after, rfl, ?_, rfl, hlater⟩
            rw [hplace, length_join_lone]
            omega
      | group first inside last =>
          rw [lonesFrom] at h
          obtain ⟨before, after, rfl, hplace, rfl, hlater⟩ := ih h
          refine ⟨.group first inside last :: before, after, rfl, ?_, rfl, hlater⟩
          rw [hplace, length_join_group]
          omega

/-- Symbols that are passed over only move the position. -/
theorem outsideFrom_skip (opener : Side) (position : Nat) (skipped rest : List Symbol) :
    outsideFrom opener position skipped.length (skipped ++ rest) =
      outsideFrom opener (position + skipped.length) 0 rest := by
  induction skipped generalizing position with
  | nil => rfl
  | cons symbol skipped ih =>
      rw [List.length_cons, List.cons_append, outsideFrom, ih]
      congr 1
      omega

/-- A scan visits exactly the lone pieces. -/
theorem outsideFrom_join {opener : Side} {parts : List Piece} (h : IsNormal opener parts)
    (position : Nat) : outsideFrom opener position 0 (join parts) = lonesFrom position parts := by
  induction parts generalizing position with
  | nil => rfl
  | cons piece rest ih =>
      cases piece with
      | lone symbol =>
          rw [join_lone, outsideFrom, spanLength?_lone h, lonesFrom, ih h.tail]
      | group first inside last =>
          have hskip := outsideFrom_skip opener (position + 1) (inside ++ [last]) (join rest)
          simp only [List.length_append, List.length_singleton, List.append_assoc,
            List.singleton_append] at hskip
          rw [join_group, outsideFrom, spanLength?_group h, lonesFrom, ← ih h.tail]
          simp only [hskip]
          congr 1
          omega

def reverse : Piece → Piece
  | .lone symbol => .lone symbol
  | .group first inside last => .group last inside.reverse first

@[simp] theorem loneSide?_reverse (piece : Piece) : piece.reverse.loneSide? = piece.loneSide? := by
  cases piece <;> rfl

theorem join_reverse (parts : List Piece) :
    join (parts.map reverse).reverse = (join parts).reverse := by
  induction parts with
  | nil => rfl
  | cons piece rest ih =>
      rw [List.map_cons, List.reverse_cons, join_append, ih]
      cases piece with
      | lone symbol => simp [reverse]
      | group first inside last => simp [reverse]

/-- Reading from the other end swaps the sides that open and close, and keeps
the pieces. -/
theorem IsNormal.reverse {opener : Side} {parts : List Piece} (h : IsNormal opener parts) :
    IsNormal opener.facing (parts.map Piece.reverse).reverse where
  groups first inside last member := by
    obtain ⟨piece, hpiece, hsame⟩ := List.mem_map.mp (List.mem_reverse.mp member)
    cases piece with
    | lone symbol => cases hsame
    | group first' inside' last' =>
        cases hsame
        obtain ⟨hfirst, hinside, hlast⟩ := h.groups _ _ _ hpiece
        exact ⟨hlast, hinside.reverse, by rw [Side.facing_facing]; exact hfirst⟩
  apart := by
    rw [List.pairwise_reverse, List.pairwise_map]
    refine h.apart.imp ?_
    intro earlier later happart hlater hearlier
    simp only [loneSide?_reverse, Side.facing_facing] at hlater hearlier
    exact happart hearlier hlater

/-- The lone pieces, found from the other end and with their positions turned
round, come in the opposite order. -/
theorem lonesFrom_reverse (parts : List Piece) :
    ((lonesFrom 0 (parts.map reverse).reverse).map fun (step, symbol) =>
        ((join parts).length - 1 - step, symbol)) = (lonesFrom 0 parts).reverse := by
  induction parts with
  | nil => rfl
  | cons piece rest ih =>
      have hlength : (join (rest.map reverse).reverse).length = (join rest).length := by
        rw [join_reverse, List.length_reverse]
      -- Both sides gain the new piece at their end, the others move by its length.
      have hmoved (start : Nat) :
          ((lonesFrom 0 (rest.map reverse).reverse).map fun (step, symbol) =>
              (start + (join rest).length - 1 - step, symbol)) =
            (lonesFrom start rest).reverse := by
        have hshift : lonesFrom start rest = _ := lonesFrom_add start 0 rest
        have hturned := congrArg
          (List.map fun ((place, symbol) : Nat × Symbol) => (start + place, symbol)) ih
        rw [List.map_map, List.map_reverse (l := lonesFrom 0 rest)] at hturned
        rw [hshift, ← hturned]
        apply List.map_congr_left
        rintro ⟨step, symbol⟩ member
        have hstep := lt_of_mem_lonesFrom member
        rw [hlength] at hstep
        simp only [Function.comp_apply, Prod.mk.injEq, and_true]
        omega
      rw [List.map_cons, List.reverse_cons, lonesFrom_append, List.map_append, hlength]
      cases piece with
      | lone symbol =>
          rw [lonesFrom, List.reverse_cons, ← hmoved (0 + 1), join_lone, List.length_cons]
          simp [reverse, lonesFrom, Nat.add_comm]
      | group first inside last =>
          rw [lonesFrom, ← hmoved (0 + (inside.length + 2)), join_group]
          simp only [reverse, lonesFrom, List.map_nil, List.append_nil, List.length_cons,
            List.length_append]
          congr 1
          funext place
          congr 1
          omega

end Piece

open Piece

theorem outside_forward (symbols : List Symbol) :
    outside .forward symbols = lonesFrom 0 (pieces symbols) := by
  have hscan := outsideFrom_join (isNormal_pieces symbols) 0
  rw [join_pieces] at hscan
  simp [outside, Direction.orient, Direction.opening, Direction.position, hscan]

/-- A backward scan visits what a forward scan visits, in the opposite order. -/
theorem outside_backward (symbols : List Symbol) :
    outside .backward symbols = (lonesFrom 0 (pieces symbols)).reverse := by
  have hscan := outsideFrom_join (isNormal_pieces symbols).reverse 0
  rw [join_reverse, join_pieces] at hscan
  have hlones := lonesFrom_reverse (pieces symbols)
  rw [join_pieces] at hlones
  rw [← hlones, ← hscan]
  rfl

end Calculator
