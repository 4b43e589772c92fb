import Calculator.Proofs.Evaluation

/-!
Evaluation does not see how long a number was. Lists of symbols that differ only
in the lengths of their numbers are cut at the same places and have the same value
or the same error.
-/

namespace Calculator

open Piece

/-- The symbol without the length of the text that a number was read from. -/
def Symbol.unmeasured : Symbol → Symbol
  | .number value _ => .number value 0
  | symbol => symbol

namespace Symbol

@[simp] theorem side?_unmeasured (symbol : Symbol) : symbol.unmeasured.side? = symbol.side? := by
  cases symbol <;> rfl

@[simp] theorem operator?_unmeasured (symbol : Symbol) :
    symbol.unmeasured.operator? = symbol.operator? := by
  cases symbol <;> rfl

@[simp] theorem text_unmeasured (symbol : Symbol) : symbol.unmeasured.text = symbol.text := by
  cases symbol <;> rfl

@[simp] theorem reading_unmeasured (symbol : Symbol) :
    symbol.unmeasured.reading = symbol.reading := by
  cases symbol <;> rfl

@[simp] theorem unmeasured_eq_finish_iff {symbol : Symbol} :
    symbol.unmeasured = .finish ↔ symbol = .finish := by
  cases symbol <;> simp [unmeasured]

end Symbol

def Cut.unmeasured (cut : Cut) : Cut :=
  { cut with left := cut.left.map Symbol.unmeasured, right := cut.right.map Symbol.unmeasured }

section Unmeasured

variable {symbols : List Symbol}

theorem spell_map_unmeasured (symbols : List Symbol) :
    spell (symbols.map Symbol.unmeasured) = spell symbols := by
  induction symbols with
  | nil => rfl
  | cons symbol rest ih => rw [List.map_cons, spell_cons, spell_cons, ih, Symbol.text_unmeasured]

theorem dropSentinels_map_unmeasured (symbols : List Symbol) :
    dropSentinels (symbols.map Symbol.unmeasured) =
      (dropSentinels symbols).map Symbol.unmeasured := by
  have hstart : dropStart (symbols.map Symbol.unmeasured) =
      (dropStart symbols).map Symbol.unmeasured := by
    cases symbols with
    | nil => rfl
    | cons symbol rest => cases symbol <;> rfl
  have hfinish (slice : List Symbol) : dropFinish (slice.map Symbol.unmeasured) =
      (dropFinish slice).map Symbol.unmeasured := by
    have hlast : (slice.map Symbol.unmeasured).getLast? = some .finish ↔
        slice.getLast? = some .finish := by
      simp [List.getLast?_map]
    unfold dropFinish
    by_cases h : slice.getLast? = some .finish
    · rw [if_pos h, if_pos (hlast.mpr h), List.map_dropLast]
    · rw [if_neg h, if_neg fun hmap => h (hlast.mp hmap)]
  rw [dropSentinels, hstart, hfinish, dropSentinels]

theorem closer?_map_unmeasured (opener : Side) (depth position : Nat) (symbols : List Symbol) :
    closer? opener depth position (symbols.map Symbol.unmeasured) =
      closer? opener depth position symbols := by
  induction symbols generalizing depth position with
  | nil => rfl
  | cons symbol rest ih =>
      rw [List.map_cons, closer?.eq_def, closer?.eq_def opener depth position (symbol :: rest)]
      simp only [Symbol.side?_unmeasured, ih]

theorem spanLength?_map_unmeasured (opener : Side) (symbol : Symbol) (rest : List Symbol) :
    spanLength? opener symbol.unmeasured (rest.map Symbol.unmeasured) =
      spanLength? opener symbol rest := by
  simp only [spanLength?, Symbol.side?_unmeasured, closer?_map_unmeasured]

theorem unwrap?_map_unmeasured (symbols : List Symbol) :
    unwrap? (symbols.map Symbol.unmeasured) =
      (unwrap? symbols).map (List.map Symbol.unmeasured) := by
  cases symbols with
  | nil => rfl
  | cons first rest =>
      rw [List.map_cons, unwrap?, unwrap?, spanLength?_map_unmeasured, List.length_map]
      split
      · rw [Option.map_some, List.map_dropLast]
      · rfl

theorem outsideFrom_map_unmeasured (opener : Side) (position skip : Nat) (symbols : List Symbol) :
    outsideFrom opener position skip (symbols.map Symbol.unmeasured) =
      (outsideFrom opener position skip symbols).map fun place =>
        (place.1, place.2.unmeasured) := by
  induction symbols generalizing position skip with
  | nil => cases skip <;> rfl
  | cons symbol rest ih =>
      cases skip with
      | succ skip => rw [List.map_cons, outsideFrom, outsideFrom, ih]
      | zero =>
          rw [List.map_cons, outsideFrom, outsideFrom, spanLength?_map_unmeasured]
          cases spanLength? opener symbol rest with
          | some length => exact ih (position + 1) length
          | none => rw [ih, List.map_cons]

theorem outside_map_unmeasured (direction : Direction) (symbols : List Symbol) :
    outside direction (symbols.map Symbol.unmeasured) =
      (outside direction symbols).map fun place => (place.1, place.2.unmeasured) := by
  have horient : direction.orient (symbols.map Symbol.unmeasured) =
      (direction.orient symbols).map Symbol.unmeasured := by
    cases direction with
    | forward => rfl
    | backward => exact List.map_reverse.symm
  simp only [outside, horient, outsideFrom_map_unmeasured, List.length_map, List.map_map]
  rfl

theorem Operator.occurrences_map_unmeasured (o : Operator) (slice : List Symbol) :
    o.occurrences (slice.map Symbol.unmeasured) = o.occurrences slice := by
  unfold occurrences
  rw [outside_map_unmeasured, List.filterMap_map]
  congr 1
  funext place
  simp

theorem Operator.cut?_map_unmeasured (o : Operator) (slice : List Symbol) :
    o.cut? (slice.map Symbol.unmeasured) = (o.cut? slice).map (Except.map Cut.unmeasured) := by
  unfold cut?
  rw [occurrences_map_unmeasured, List.length_map]
  cases o.occurrences slice with
  | nil => rfl
  | cons first rest =>
      cases o.defect? with
      | some error => rfl
      | none =>
          dsimp only
          rw [Option.map_map]
          congr 1
          funext place
          simp [cutAt, Cut.unmeasured, Except.map, List.map_take, List.map_drop]

namespace Catalog

variable {catalog : Catalog} {loosest : Nat}

theorem cut?_map_unmeasured (catalog : Catalog) (loosest : Nat) (slice : List Symbol) :
    catalog.cut? loosest (slice.map Symbol.unmeasured) =
      (catalog.cut? loosest slice).map (Except.map Cut.unmeasured) := by
  unfold cut?
  rw [List.map_findSome?]
  congr 1
  funext o
  exact o.cut?_map_unmeasured slice

theorem IsCompound.map_unmeasured {slice : List Symbol} (h : IsCompound slice) :
    IsCompound (slice.map Symbol.unmeasured) := by
  refine ⟨?_, by rw [List.length_map]; exact h.2⟩
  rw [unwrap?_map_unmeasured, h.1]
  rfl

/-- The value of a list, or the error, is the same without the lengths of its
numbers. -/
theorem result_evaluateFrom_map_unmeasured (catalog : Catalog) (loosest : Nat)
    (symbols : List Symbol) :
    (catalog.evaluateFrom loosest (symbols.map Symbol.unmeasured)).result =
      (catalog.evaluateFrom loosest symbols).result := by
  induction loosest, symbols using @reading_induction catalog with
  | group loosest symbols first last inside hgroup ih =>
      have hunwrap : unwrap? (dropSentinels (symbols.map Symbol.unmeasured)) =
          some (inside.map Symbol.unmeasured) := by
        rw [dropSentinels_map_unmeasured, unwrap?_map_unmeasured,
          unwrap?_eq_some_iff.mpr ⟨first, last, hgroup⟩]
        rfl
      obtain ⟨first', last', hgroup'⟩ := unwrap?_eq_some_iff.mp hunwrap
      rw [result_of_group hgroup', result_of_group hgroup, ih]
  | single loosest symbols symbol hsingle =>
      have hsingle' : dropSentinels (symbols.map Symbol.unmeasured) = [symbol.unmeasured] := by
        rw [dropSentinels_map_unmeasured, hsingle]
        rfl
      rw [result_of_single hsingle', result_of_single hsingle, Symbol.reading_unmeasured]
  | unresolved loosest symbols hcompound hnone
  | invalid loosest symbols error hcompound hnone =>
      rw [result_of_compound hcompound, result_of_compound
        (dropSentinels_map_unmeasured symbols ▸ hcompound.map_unmeasured),
        dropSentinels_map_unmeasured, cut?_map_unmeasured, hnone, spell_map_unmeasured]
      rfl
  | cut loosest symbols cut hcompound hcut ihleft ihright =>
      rw [result_of_compound hcompound, result_of_compound
        (dropSentinels_map_unmeasured symbols ▸ hcompound.map_unmeasured),
        dropSentinels_map_unmeasured, cut?_map_unmeasured, hcut]
      show catalog.resultAround cut.unmeasured = catalog.resultAround cut
      simp only [resultAround, Cut.unmeasured, ihleft, ihright]

/-- Lists that differ in the lengths of their numbers have one result. -/
theorem result_evaluate_congr {others : List Symbol}
    (h : others.map Symbol.unmeasured = symbols.map Symbol.unmeasured) :
    (catalog.evaluate others).result = (catalog.evaluate symbols).result := by
  rw [result_evaluate, result_evaluate, ← result_evaluateFrom_map_unmeasured, h,
    result_evaluateFrom_map_unmeasured]

end Catalog

end Unmeasured

end Calculator
