import Calculator.Catalog.Standard
import Calculator.Proofs.Precedence
import Calculator.Proofs.Ranking

/-!
The precedence from which a list of symbols is evaluated. What has a value from
some precedence on holds no looser operator outside brackets. A lower start tries
more operators, but none of the others occurs, so every slice is cut as before.
-/

namespace Calculator

open Piece

/-- The first success of a search is the same among the entries that a filter
keeps, if it keeps every entry that succeeds. -/
theorem findSome?_filter_of_imp {α β : Type} {search : α → Option β} {keep : α → Bool}
    {entries : List α} (h : ∀ entry ∈ entries, search entry ≠ none → keep entry = true) :
    (entries.filter keep).findSome? search = entries.findSome? search := by
  induction entries with
  | nil => rfl
  | cons entry rest ih =>
      have hrest := ih fun other member => h other (List.mem_cons_of_mem entry member)
      by_cases hkeep : keep entry = true
      · rw [List.filter_cons_of_pos hkeep, List.findSome?_cons, List.findSome?_cons, hrest]
      · have hnone : search entry = none :=
          Classical.byContradiction fun hsome => hkeep (h entry List.mem_cons_self hsome)
        rw [List.filter_cons_of_neg hkeep, List.findSome?_cons, hnone, hrest]

namespace Catalog

variable {catalog : Catalog} {looser tighter : Nat} {symbols slice : List Symbol}

/-- The ladder from a precedence on is the end of every longer one. -/
theorem ladder_eq_filter_ladder (hle : looser ≤ tighter) :
    catalog.ladder tighter = (catalog.ladder looser).filter fun o => tighter ≤ o.precedence := by
  rw [ladder_eq_filter_ranked, ladder_eq_filter_ranked, List.filter_filter]
  refine List.filter_congr fun o _ => ?_
  by_cases htight : tighter ≤ o.precedence
  · have hloose : looser ≤ o.precedence := Nat.le_trans hle htight
    simp [htight, hloose]
  · simp [htight]

/-- Outside the brackets of the slice stand only operators of at least the
precedence. -/
def BindsFrom (catalog : Catalog) (precedence : Nat) (slice : List Symbol) : Prop :=
  ∀ o ∈ catalog.operators, o.OccursIn (pieces slice) → precedence ≤ o.precedence

/-- Operators that do not occur cut nothing, not even if they cannot be applied. -/
theorem BindsFrom.cut?_eq (h : catalog.BindsFrom tighter slice) (hle : looser ≤ tighter) :
    catalog.cut? looser slice = catalog.cut? tighter slice := by
  unfold cut?
  rw [ladder_eq_filter_ladder hle, findSome?_filter_of_imp]
  intro o member hcut
  exact decide_eq_true (h o (mem_ladder.mp member).1 (Operator.occursIn_of_cut?_ne_none hcut))

/-- A slice is understood alike from both precedences. The sides of a cut are read
from the precedence of its operator on, and the inside of a group with all
operators, so only the slice as a whole has to be looked at. -/
theorem BindsFrom.reading_eq (h : catalog.BindsFrom tighter (dropSentinels symbols))
    (hle : looser ≤ tighter) :
    catalog.reading looser symbols = catalog.reading tighter symbols := by
  rcases slice_cases (dropSentinels symbols) with
    ⟨first, inside, last, hgroup⟩ | ⟨symbol, hsingle⟩ | hcompound
  · rw [reading_of_group hgroup, reading_of_group hgroup]
  · rw [reading_of_single hsingle, reading_of_single hsingle]
  · rw [reading_of_compound hcompound, reading_of_compound hcompound, h.cut?_eq hle]

/-- Without two operators of one operation, a value is made of no operators but
those of at least the precedence from which it was evaluated. -/
theorem Evaluates.bindsFrom {value : Float}
    (hkinds : (catalog.operators.map Operator.operation).Nodup)
    (h : catalog.Evaluates tighter symbols value) :
    catalog.BindsFrom tighter (dropSentinels symbols) := by
  intro o ho hoccurs
  obtain ⟨piece, hpiece, entry, hentry, hoperation⟩ := hoccurs
  obtain ⟨before, after, hparts, -⟩ := exists_pieces_eq_dropSentinels symbols
  have hwhole : piece ∈ pieces symbols := by
    rw [hparts]
    exact List.mem_append_left after (List.mem_append_right before hpiece)
  obtain ⟨other, hother, hsame, htighter⟩ := h.exists_operator hwhole hentry
  rwa [Operator.eq_of_operation_eq hkinds o ho other hother (hoperation.symm.trans hsame.symm)]

/-- Starting from a higher precedence only restricts what has a value. Without two
operators of one operation, whatever has a value from some precedence on has it
from every lower one too, and is evaluated by the same steps. -/
theorem evaluateFrom_of_looser (catalog : Catalog)
    (hkinds : (catalog.operators.map Operator.operation).Nodup) (symbols : List Symbol)
    (looser tighter : Nat) (hle : looser ≤ tighter) (value : Float)
    (h : (catalog.evaluateFrom tighter symbols).result = .ok value) :
    (catalog.evaluateFrom looser symbols).result = .ok value ∧
      (catalog.evaluateFrom looser symbols).events =
        (catalog.evaluateFrom tighter symbols).events := by
  have hbinds := (result_eq_ok_iff.mp h).bindsFrom hkinds
  have hsame : catalog.evaluateFrom looser symbols = catalog.evaluateFrom tighter symbols := by
    rw [evaluateFrom, evaluateFrom, hbinds.reading_eq hle]
  exact ⟨by rw [hsame, h], by rw [hsame]⟩

/-- The product in `(1 + 2) * 3`, between sentinels. The sum stands in brackets, and
the negation, which cannot be applied, does not occur. -/
theorem evaluateFrom_of_looser_product :
    let catalog : Catalog :=
      ⟨[{ Operator.negation with placement := .between }, .addition, .multiplication],
        standardBrackets⟩
    let pair := standardBrackets[0]
    let symbols : List Symbol :=
      [.start, .bracket pair .opening 1, .number 1 1, .operator .addition 1, .number 2 1,
        .bracket pair .closing 1, .operator .multiplication 1, .number 3 1, .finish]
    (catalog.operators.map Operator.operation).Nodup ∧ 0 ≤ 1 ∧
      (catalog.evaluateFrom 1 symbols).result = .ok 9 ∧
      (catalog.evaluateFrom 0 symbols).result = .ok 9 ∧
      (catalog.evaluateFrom 0 symbols).events = (catalog.evaluateFrom 1 symbols).events := by
  intro catalog pair symbols
  have hkinds : (catalog.operators.map Operator.operation).Nodup := by decide
  let inside : List Symbol := [.number 1 1, .operator .addition 1, .number 2 1]
  let group : List Symbol := .bracket pair .opening 1 :: (inside ++ [.bracket pair .closing 1])
  have hplus : catalog.cut? 0 (dropSentinels inside) =
      some (.ok ⟨.addition, [.number 1 1], .addition, [.number 2 1]⟩) := by
    rw [cut?_eq_findSome?_ranked]
    rfl
  have hsum : catalog.Evaluates 0 inside 3 :=
    .between ⟨rfl, by decide⟩ hplus rfl .literal .literal
      (congrArg Except.ok (by decide +kernel : (1 + 2 : Float) = 3))
  have htimes : catalog.cut? 1 (dropSentinels symbols) =
      some (.ok ⟨.multiplication, group, .multiplication, [.number 3 1]⟩) := by
    rw [cut?_eq_findSome?_ranked]
    rfl
  have hproduct : catalog.Evaluates 1 symbols 9 :=
    .between ⟨rfl, by decide⟩ htimes rfl (.group rfl hsum) .literal
      (congrArg Except.ok (by decide +kernel : (3 * 3 : Float) = 9))
  have hvalue := result_eq_ok_iff.mpr hproduct
  exact ⟨hkinds, Nat.zero_le 1, hvalue,
    evaluateFrom_of_looser catalog hkinds symbols 0 1 (Nat.zero_le 1) 9 hvalue⟩

end Catalog

end Calculator
