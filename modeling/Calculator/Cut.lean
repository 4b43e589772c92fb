import Calculator.Catalog
import Calculator.Nesting

/-!
Cutting a slice in two around an operator. An operator of two operands is cut
at its first occurrence in scan order; an operator of one operand only at the
edge of the slice where it has no operand. Occurrences inside a bracket pair
are not looked at.
-/

namespace Calculator

/-- A slice cut in two: the operator that is applied, the symbols to the left,
the operator that stands at the cut, and the symbols to the right. -/
structure Cut where
  operator : Operator
  left : List Symbol
  pivot : Operator
  right : List Symbol
  deriving DecidableEq

namespace Operator

/-- Operators that group from the left are looked for from the right, so that
the last occurrence becomes the outermost one. -/
def direction (o : Operator) : Direction :=
  if o.groupsFromLeft then .backward else .forward

/-- Whether the operator can be applied at a position of a slice: an operator
before its operand has nothing to its left, one after its operand has nothing to
its right. -/
def usableAt (o : Operator) (length position : Nat) : Bool :=
  match o.placement with
  | .before => position = 0
  | .between => true
  | .after => position + 1 = length

def occurrences (o : Operator) (slice : List Symbol) : List (Nat × Operator) :=
  (outside o.direction slice).filterMap fun (position, symbol) =>
    (symbol.operator?.filter fun entry => entry.operation = o.operation).map fun entry =>
      (position, entry)

def firstUsable? (o : Operator) (length : Nat) (found : List (Nat × Operator)) :
    Option (Nat × Operator) :=
  found.find? fun place => o.usableAt length place.1

def cutAt (o : Operator) (slice : List Symbol) (place : Nat × Operator) : Cut :=
  ⟨o, slice.take place.1, place.2, slice.drop (place.1 + 1)⟩

/-- The cut of a slice around the first usable occurrence of the operator. An
operator that cannot be applied fails as soon as it occurs at all. -/
def cut? (o : Operator) (slice : List Symbol) : Option (Except EvalError Cut) :=
  match o.occurrences slice, o.defect? with
  | [], _ => none
  | _ :: _, some error => some (.error error)
  | first :: rest, none =>
      (o.firstUsable? slice.length (first :: rest)).map fun place => .ok (o.cutAt slice place)

end Operator

def Catalog.cut? (catalog : Catalog) (loosest : Nat) (slice : List Symbol) :
    Option (Except EvalError Cut) :=
  (catalog.ladder loosest).findSome? (·.cut? slice)

theorem outsideFrom_bounds (opener : Side) (symbols : List Symbol) (position skip : Nat) :
    ∀ found ∈ outsideFrom opener position skip symbols,
      position ≤ found.1 ∧ found.1 < position + symbols.length := by
  induction symbols generalizing position skip with
  | nil => simp [outsideFrom]
  | cons symbol rest ih =>
      intro found member
      rw [List.length_cons]
      cases skip with
      | succ skip =>
          have := ih (position + 1) skip found member
          omega
      | zero =>
          unfold outsideFrom at member
          split at member
          · have := ih (position + 1) _ found member
            omega
          · rcases List.mem_cons.mp member with rfl | later
            · simp
            · have := ih (position + 1) 0 found later
              omega

theorem outside_position_lt {direction : Direction} {symbols : List Symbol}
    {found : Nat × Symbol} (h : found ∈ outside direction symbols) :
    found.1 < symbols.length := by
  obtain ⟨⟨step, symbol⟩, member, rfl⟩ := List.mem_map.mp h
  have bounds := outsideFrom_bounds _ _ _ _ _ member
  cases direction with
  | forward => simpa [Direction.orient, Direction.position] using bounds.2
  | backward =>
      simp only [Direction.orient, List.length_reverse, Nat.zero_add] at bounds
      show symbols.length - 1 - step < symbols.length
      omega

theorem Operator.position_lt_of_mem_occurrences {o : Operator} {slice : List Symbol}
    {place : Nat × Operator} (h : place ∈ o.occurrences slice) : place.1 < slice.length := by
  obtain ⟨⟨position, symbol⟩, visited, found⟩ := List.mem_filterMap.mp h
  obtain ⟨entry, _, rfl⟩ := Option.map_eq_some_iff.mp found
  exact outside_position_lt visited

/-- A cut is taken at one of the occurrences, where the operator is usable. -/
theorem Operator.exists_place_of_cut? {o : Operator} {slice : List Symbol} {cut : Cut}
    (h : o.cut? slice = some (.ok cut)) :
    ∃ place ∈ o.occurrences slice,
      o.usableAt slice.length place.1 = true ∧ cut = o.cutAt slice place := by
  unfold Operator.cut? at h
  split at h
  · contradiction
  · simp at h
  · rename_i first rest occurrences _
    obtain ⟨place, found, same⟩ := Option.map_eq_some_iff.mp h
    unfold Operator.firstUsable? at found
    have usable := List.find?_some found
    exact ⟨place, occurrences ▸ List.mem_of_find?_eq_some found, usable,
      (Except.ok.inj same).symm⟩

/-- Both sides of a cut are shorter than the slice, because the symbol at the
cut belongs to neither. -/
theorem Operator.length_lt_of_cut? {o : Operator} {slice : List Symbol} {cut : Cut}
    (h : o.cut? slice = some (.ok cut)) :
    cut.left.length < slice.length ∧ cut.right.length < slice.length := by
  obtain ⟨place, member, _, rfl⟩ := Operator.exists_place_of_cut? h
  have bound := Operator.position_lt_of_mem_occurrences member
  simp only [Operator.cutAt, List.length_take, List.length_drop]
  omega

theorem Catalog.length_lt_of_cut? {catalog : Catalog} {loosest : Nat} {slice : List Symbol}
    {cut : Cut} (h : catalog.cut? loosest slice = some (.ok cut)) :
    cut.left.length < slice.length ∧ cut.right.length < slice.length := by
  obtain ⟨o, _, found⟩ := List.exists_of_findSome?_eq_some h
  exact o.length_lt_of_cut? found

end Calculator
