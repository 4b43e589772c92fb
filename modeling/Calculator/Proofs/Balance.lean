import Calculator.Nesting

/-!
Balanced lists of symbols, for both scan directions at once. A scan passes over
a balanced list at the depth at which it enters it, and reversing the list
swaps the sides that open and close.
-/

namespace Calculator

def Side.facing : Side → Side
  | .opening => .closing
  | .closing => .opening

@[simp] theorem Side.facing_facing (side : Side) : side.facing.facing = side := by
  cases side <;> rfl

@[simp] theorem Side.facing_ne (side : Side) : side.facing ≠ side := by
  cases side <;> simp [Side.facing]

theorem Side.eq_facing_of_ne {side opener : Side} (h : side ≠ opener) :
    side = opener.facing := by
  cases side <;> cases opener <;> simp_all [Side.facing]

/-- A symbol leaves the depth of a scan as it is, opens a span, or ends one. -/
theorem Symbol.side?_cases (opener : Side) (symbol : Symbol) :
    symbol.side? = none ∨ symbol.side? = some opener ∨ symbol.side? = some opener.facing := by
  cases hside : symbol.side? with
  | none => exact Or.inl rfl
  | some side =>
      by_cases hsame : side = opener
      · exact Or.inr (Or.inl (by rw [hsame]))
      · exact Or.inr (Or.inr (by rw [Side.eq_facing_of_ne hsame]))

section Closer

variable {opener : Side} {symbol : Symbol} {depth position : Nat} {rest : List Symbol}

theorem closer?_plain (h : symbol.side? = none) :
    closer? opener depth position (symbol :: rest) = closer? opener depth (position + 1) rest := by
  rw [closer?.eq_def]
  simp only [h]

theorem closer?_opener (h : symbol.side? = some opener) :
    closer? opener depth position (symbol :: rest) =
      closer? opener (depth + 1) (position + 1) rest := by
  rw [closer?.eq_def]
  simp only [h, ↓reduceIte]

theorem closer?_facing_zero (h : symbol.side? = some opener.facing) :
    closer? opener 0 position (symbol :: rest) = some position := by
  rw [closer?.eq_def]
  simp only [h, opener.facing_ne, ↓reduceIte]

theorem closer?_facing_succ (h : symbol.side? = some opener.facing) :
    closer? opener (depth + 1) position (symbol :: rest) =
      closer? opener depth (position + 1) rest := by
  rw [closer?.eq_def]
  simp only [h, opener.facing_ne, ↓reduceIte]

end Closer

/-- Every bracket is paired up within the list, where the brackets of the side
`opener` open. -/
inductive Balanced (opener : Side) : List Symbol → Prop where
  | nil : Balanced opener []
  | plain {symbol : Symbol} {rest : List Symbol} (hplain : symbol.side? = none)
      (hrest : Balanced opener rest) : Balanced opener (symbol :: rest)
  | span {first last : Symbol} {inside rest : List Symbol}
      (hfirst : first.side? = some opener) (hinside : Balanced opener inside)
      (hlast : last.side? = some opener.facing) (hrest : Balanced opener rest) :
      Balanced opener (first :: (inside ++ last :: rest))

namespace Balanced

variable {opener : Side} {symbols others : List Symbol}

theorem append (h : Balanced opener symbols) (hothers : Balanced opener others) :
    Balanced opener (symbols ++ others) := by
  induction h with
  | nil => exact hothers
  | plain hplain _ ih => exact .plain hplain ih
  | span hfirst hinside hlast _ _ ih =>
      rw [List.cons_append, List.append_assoc, List.cons_append]
      exact .span hfirst hinside hlast ih

theorem wrap {first last : Symbol} (hfirst : first.side? = some opener)
    (hinside : Balanced opener symbols) (hlast : last.side? = some opener.facing) :
    Balanced opener (first :: (symbols ++ [last])) :=
  .span hfirst hinside hlast .nil

/-- Read from the other end, a balanced list is balanced with the sides swapped. -/
theorem reverse (h : Balanced opener symbols) : Balanced opener.facing symbols.reverse := by
  induction h with
  | nil => exact .nil
  | plain hplain _ ih =>
      rw [List.reverse_cons]
      exact ih.append (.plain hplain .nil)
  | @span first last inside rest hfirst _ hlast _ ihinside ihrest =>
      have hswapped : (first :: (inside ++ last :: rest)).reverse =
          rest.reverse ++ last :: (inside.reverse ++ [first]) := by
        simp
      rw [hswapped]
      apply ihrest.append
      apply wrap hlast ihinside
      rw [Side.facing_facing]
      exact hfirst

/-- A scan for the end of a span leaves a balanced list at the depth at which
it entered. -/
theorem closer?_append (h : Balanced opener symbols) (depth position : Nat)
    (others : List Symbol) :
    closer? opener depth position (symbols ++ others) =
      closer? opener depth (position + symbols.length) others := by
  induction h generalizing depth position others with
  | nil => rfl
  | @plain symbol rest hplain _ ih =>
      rw [List.cons_append, closer?_plain hplain, ih, List.length_cons]
      congr 1
      omega
  | @span first last inside rest hfirst _ hlast _ ihinside ihrest =>
      rw [List.cons_append, closer?_opener hfirst, List.append_assoc, ihinside, List.cons_append,
        closer?_facing_succ hlast, ihrest, List.length_cons, List.length_append, List.length_cons]
      congr 1
      omega

end Balanced

/-- The span of a bracket that is followed by a balanced list and its partner
reaches to the partner. -/
theorem spanLength?_of_balanced {opener : Side} {first last : Symbol} {inside : List Symbol}
    (hfirst : first.side? = some opener) (hinside : Balanced opener inside)
    (hlast : last.side? = some opener.facing) (rest : List Symbol) :
    spanLength? opener first (inside ++ last :: rest) = some (inside.length + 1) := by
  rw [spanLength?, if_pos hfirst, hinside.closer?_append, closer?_facing_zero hlast, Nat.add_comm]

end Calculator
