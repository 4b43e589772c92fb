import Calculator.Proofs.Pieces

/-!
Balance by counting. The brackets of a list are well nested if no beginning of
the list closes more brackets than it opens, and the whole list closes as many
as it opens. These are exactly the balanced lists.
-/

namespace Calculator

open Piece

def sideCount (side : Side) (symbols : List Symbol) : Nat :=
  symbols.countP fun symbol => symbol.side? = some side

@[simp] theorem sideCount_nil (side : Side) : sideCount side [] = 0 := rfl

@[simp] theorem sideCount_append (side : Side) (first second : List Symbol) :
    sideCount side (first ++ second) = sideCount side first + sideCount side second :=
  List.countP_append

theorem sideCount_cons_self {side : Side} {symbol : Symbol} (h : symbol.side? = some side)
    (rest : List Symbol) : sideCount side (symbol :: rest) = sideCount side rest + 1 :=
  List.countP_cons_of_pos (by simp [h])

theorem sideCount_cons_of_ne {side : Side} {symbol : Symbol} (h : symbol.side? ≠ some side)
    (rest : List Symbol) : sideCount side (symbol :: rest) = sideCount side rest :=
  List.countP_cons_of_neg (by simp [h])

/-- Read from the left, no bracket closes before one is open, and in the end
none is left open. -/
structure WellNested (symbols : List Symbol) : Prop where
  closing_le : ∀ front, front <+: symbols → sideCount .closing front ≤ sideCount .opening front
  opening_eq : sideCount .opening symbols = sideCount .closing symbols

namespace WellNested

variable {symbols others : List Symbol}

theorem nil : WellNested [] where
  closing_le front hfront := by
    rw [List.prefix_nil.mp hfront]
    exact Nat.le_refl _
  opening_eq := rfl

theorem append (h : WellNested symbols) (hothers : WellNested others) :
    WellNested (symbols ++ others) where
  closing_le front hfront := by
    rcases List.prefix_or_prefix_of_prefix hfront (List.prefix_append symbols others) with
      inside | beyond
    · exact h.closing_le front inside
    · obtain ⟨rest, rfl⟩ := beyond
      have hrest := hothers.closing_le rest ((List.prefix_append_right_inj symbols).mp hfront)
      have hwhole := h.opening_eq
      rw [sideCount_append, sideCount_append]
      omega
  opening_eq := by
    rw [sideCount_append, sideCount_append, h.opening_eq, hothers.opening_eq]

theorem singleton {symbol : Symbol} (h : symbol.side? = none) : WellNested [symbol] where
  closing_le front hfront := by
    rcases List.prefix_cons_iff.mp hfront with rfl | ⟨rest, rfl, hrest⟩
    · exact Nat.le_refl _
    · rw [List.prefix_nil.mp hrest, sideCount_cons_of_ne (by simp [h])]
      exact Nat.zero_le _
  opening_eq := by
    rw [sideCount_cons_of_ne (by simp [h]), sideCount_cons_of_ne (by simp [h])]
    rfl

theorem wrap {first last : Symbol} (hfirst : first.side? = some .opening)
    (h : WellNested symbols) (hlast : last.side? = some .closing) :
    WellNested (first :: (symbols ++ [last])) where
  closing_le front hfront := by
    rcases List.prefix_cons_iff.mp hfront with rfl | ⟨rest, rfl, hrest⟩
    · exact Nat.le_refl _
    · rw [sideCount_cons_self hfirst, sideCount_cons_of_ne (by simp [hfirst])]
      rcases List.prefix_concat_iff.mp hrest with rfl | inside
      · have hwhole := h.opening_eq
        rw [sideCount_append, sideCount_append, sideCount_cons_self hlast,
          sideCount_cons_of_ne (by simp [hlast]), sideCount_nil, sideCount_nil]
        omega
      · have hinside := h.closing_le rest inside
        omega
  opening_eq := by
    have hwhole := h.opening_eq
    rw [sideCount_cons_self hfirst, sideCount_cons_of_ne (by simp [hfirst]), sideCount_append,
      sideCount_append, sideCount_cons_self hlast, sideCount_cons_of_ne (by simp [hlast]),
      sideCount_nil, sideCount_nil]
    omega

end WellNested

theorem Balanced.wellNested {symbols : List Symbol} (h : Balanced .opening symbols) :
    WellNested symbols := by
  induction h with
  | nil => exact .nil
  | @plain symbol rest hplain _ ih => exact (WellNested.singleton hplain).append ih
  | @span first last inside rest hfirst _ hlast _ ihinside ihrest =>
      have hpair := (WellNested.wrap hfirst ihinside hlast).append ihrest
      simpa using hpair

/-- Pieces without a lone closing bracket hold more opening than closing
brackets, by the number of their lone opening brackets. -/
theorem Piece.sideCount_join {parts : List Piece} (h : IsNormal .opening parts)
    (hparts : ∀ piece ∈ parts, piece.keepsOpen = true) :
    sideCount .opening (join parts) =
      sideCount .closing (join parts) +
        parts.countP fun piece => piece.loneSide? = some .opening := by
  induction parts with
  | nil => rfl
  | cons piece rest ih =>
      have hrest := ih h.tail fun other member => hparts other (List.mem_cons_of_mem _ member)
      cases piece with
      | lone symbol =>
          have hclosing : symbol.side? ≠ some .closing :=
            keepsOpen_iff.mp (hparts (.lone symbol) List.mem_cons_self)
          rw [join_lone, sideCount_cons_of_ne hclosing]
          by_cases hopening : symbol.side? = some .opening
          · rw [sideCount_cons_self hopening,
              List.countP_cons_of_pos (by simp [loneSide?, hopening])]
            omega
          · rw [sideCount_cons_of_ne hopening,
              List.countP_cons_of_neg (by simp [loneSide?, hopening])]
            exact hrest
      | group first inside last =>
          obtain ⟨hfirst, hinside, hlast⟩ := h.groups first inside last List.mem_cons_self
          have hpair := (WellNested.wrap hfirst hinside.wellNested hlast).opening_eq
          have hjoin : join (.group first inside last :: rest) =
              first :: (inside ++ [last]) ++ join rest := by
            simp
          rw [hjoin, sideCount_append, sideCount_append,
            List.countP_cons_of_neg (by simp [loneSide?])]
          omega

/-- A lone closing bracket closes more than is open before it, and a lone
opening bracket is never closed, so a well-nested list has neither. -/
theorem WellNested.loneSide?_eq_none {symbols : List Symbol} (h : WellNested symbols) :
    ∀ piece ∈ pieces symbols, piece.loneSide? = none := by
  have hnormal := isNormal_pieces symbols
  have hjoin := join_pieces symbols
  rcases exists_first_closing (pieces symbols) with hall |
    ⟨between, last, rest, hparts, hlast, hbetween⟩
  · have hcount := sideCount_join hnormal hall
    rw [hjoin, h.opening_eq] at hcount
    have hnone := List.countP_eq_zero.mp (Nat.left_eq_add.mp hcount)
    intro piece member
    have hclosing := keepsOpen_iff.mp (hall piece member)
    have hopening := hnone piece member
    cases hside : piece.loneSide? with
    | none => rfl
    | some side =>
        cases side with
        | opening => simp [hside] at hopening
        | closing => exact absurd hside hclosing
  · exfalso
    rw [hparts] at hnormal hjoin
    have hbefore := (hnormal.balanced_join_left hlast hbetween).wellNested.opening_eq
    have hfront : join between ++ [last] <+: symbols :=
      ⟨join rest, by rw [← hjoin, join_append, join_lone, List.append_assoc]; rfl⟩
    have hle := h.closing_le _ hfront
    rw [sideCount_append, sideCount_append, sideCount_cons_self hlast,
      sideCount_cons_of_ne (by simp [hlast]), sideCount_nil, sideCount_nil] at hle
    omega

theorem wellNested_iff_balanced {symbols : List Symbol} :
    WellNested symbols ↔ Balanced .opening symbols := by
  refine ⟨fun h => ?_, Balanced.wellNested⟩
  have hjoin := (isNormal_pieces symbols).balanced_join h.loneSide?_eq_none
  rwa [join_pieces] at hjoin

end Calculator
