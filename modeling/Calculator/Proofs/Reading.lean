import Calculator.Proofs.Ladder
import Calculator.Reading

/-!
How a list of symbols is read: one equation for each way in which a slice is
understood, and the induction over all lists that follows the way in which they
are taken apart.
-/

namespace Calculator

open Piece

theorem dropStart_of_head? {symbols : List Symbol} (h : symbols.head? ≠ some .start) :
    dropStart symbols = symbols := by
  unfold dropStart
  split
  · simp at h
  · rfl

theorem dropFinish_of_getLast? {symbols : List Symbol} (h : symbols.getLast? ≠ some .finish) :
    dropFinish symbols = symbols := if_neg h

theorem dropSentinels_of_not_mem {symbols : List Symbol} (hstart : .start ∉ symbols)
    (hfinish : .finish ∉ symbols) : dropSentinels symbols = symbols := by
  have hhead : symbols.head? ≠ some .start := fun h => hstart (List.mem_of_head? h)
  have hlast : symbols.getLast? ≠ some .finish := fun h => hfinish (List.mem_of_getLast? h)
  rw [dropSentinels, dropStart_of_head? hhead, dropFinish_of_getLast? hlast]

/-- Sentinels are taken off the ends, one from each. -/
theorem exists_eq_dropSentinels (symbols : List Symbol) :
    ∃ before after, symbols = before ++ dropSentinels symbols ++ after ∧
      (before = [] ∨ before = [.start]) ∧ (after = [] ∨ after = [.finish]) := by
  obtain ⟨before, hstart, hbefore⟩ :
      ∃ before, symbols = before ++ dropStart symbols ∧ (before = [] ∨ before = [.start]) := by
    unfold dropStart
    split
    · exact ⟨[.start], rfl, Or.inr rfl⟩
    · exact ⟨[], rfl, Or.inl rfl⟩
  obtain ⟨after, hfinish, hafter⟩ : ∃ after, dropStart symbols = dropSentinels symbols ++ after ∧
      (after = [] ∨ after = [.finish]) := by
    unfold dropSentinels dropFinish
    split
    · rename_i hlast
      obtain ⟨rest, hrest⟩ := List.getLast?_eq_some_iff.mp hlast
      exact ⟨[.finish], by rw [hrest, List.dropLast_concat], Or.inr rfl⟩
    · exact ⟨[], (List.append_nil _).symm, Or.inl rfl⟩
  exact ⟨before, after, by rw [List.append_assoc, ← hfinish, ← hstart], hbefore, hafter⟩

theorem isInfix_dropSentinels (symbols : List Symbol) : dropSentinels symbols <:+: symbols := by
  obtain ⟨before, after, hsymbols, -⟩ := exists_eq_dropSentinels symbols
  exact ⟨before, after, hsymbols.symm⟩

theorem balanced_of_dropSentinels {symbols : List Symbol}
    (h : Balanced .opening (dropSentinels symbols)) : Balanced .opening symbols := by
  obtain ⟨before, after, hsymbols, hbefore, hafter⟩ := exists_eq_dropSentinels symbols
  have hfront : Balanced .opening before := by
    rcases hbefore with rfl | rfl
    · exact .nil
    · exact .plain rfl .nil
  have hback : Balanced .opening after := by
    rcases hafter with rfl | rfl
    · exact .nil
    · exact .plain rfl .nil
  rw [hsymbols]
  exact (hfront.append h).append hback

/-- Sentinels at the ends are pieces of their own. -/
theorem exists_pieces_eq_dropSentinels (symbols : List Symbol) :
    ∃ before after, pieces symbols = before ++ pieces (dropSentinels symbols) ++ after ∧
      (before = [] ∨ before = [.lone .start]) ∧ (after = [] ∨ after = [.lone .finish]) := by
  obtain ⟨before, after, hsymbols, hbefore, hafter⟩ := exists_eq_dropSentinels symbols
  have hstart (rest : List Symbol) : pieces (.start :: rest) = .lone .start :: pieces rest :=
    prepend_of_ne_opening (by simp [Symbol.side?]) (pieces rest)
  have hfinish (rest : List Symbol) :
      pieces (rest ++ [.finish]) = pieces rest ++ [.lone .finish] :=
    pieces_append_plain rfl rest
  generalize dropSentinels symbols = slice at hsymbols
  subst hsymbols
  rcases hbefore with rfl | rfl <;> rcases hafter with rfl | rfl
  · exact ⟨[], [], by simp, Or.inl rfl, Or.inl rfl⟩
  · exact ⟨[], [.lone .finish], by simp [hfinish], Or.inl rfl, Or.inr rfl⟩
  · exact ⟨[.lone .start], [], by simp [hstart], Or.inr rfl, Or.inl rfl⟩
  · exact ⟨[.lone .start], [.lone .finish], by simp [hstart, hfinish], Or.inr rfl, Or.inr rfl⟩

theorem dropSentinels_sentinels (symbols : List Symbol) :
    dropSentinels (.start :: symbols ++ [.finish]) = symbols := by
  rw [dropSentinels, List.cons_append, dropStart, dropFinish, if_pos List.getLast?_concat,
    List.dropLast_concat]

/-- Only the two ends of a list are searched for sentinels. -/
theorem dropSentinels_append {before middle after : List Symbol} (hmiddle : middle ≠ [])
    (hhead : middle.head? ≠ some .start) (hlast : middle.getLast? ≠ some .finish) :
    dropSentinels (before ++ middle ++ after) =
      dropStart before ++ middle ++ dropFinish after := by
  have hstart : dropStart (before ++ middle ++ after) = dropStart before ++ middle ++ after := by
    cases before with
    | nil =>
        obtain ⟨first, rest, rfl⟩ := List.exists_cons_of_ne_nil hmiddle
        exact dropStart_of_head? (by simpa using hhead)
    | cons first rest => cases first <;> rfl
  rw [dropSentinels, hstart]
  unfold dropFinish
  rcases List.eq_nil_or_concat after with rfl | ⟨rest, last, rfl⟩
  · have hend : (dropStart before ++ middle).getLast? ≠ some .finish := by
      obtain ⟨last, hsome⟩ := Option.ne_none_iff_exists'.mp
        (mt List.getLast?_eq_none_iff.mp hmiddle)
      rwa [List.getLast?_append, hsome, Option.some_or, ← hsome]
    rw [List.append_nil, if_neg hend]
    simp
  · rw [List.concat_eq_append, ← List.append_assoc, List.getLast?_concat, List.getLast?_concat]
    split
    · simp
    · simp

namespace Catalog

variable {catalog : Catalog} {loosest : Nat} {symbols : List Symbol}

theorem unwrap?_singleton (symbol : Symbol) : unwrap? [symbol] = none := by
  cases h : unwrap? [symbol] with
  | none => rfl
  | some inner =>
      obtain ⟨first, last, hparts⟩ := unwrap?_eq_some_iff.mp h
      simp at hparts

def IsCompound (slice : List Symbol) : Prop := unwrap? slice = none ∧ slice.length ≠ 1

/-- The three shapes of a slice: a group, a single symbol, or something compound. -/
theorem slice_cases (slice : List Symbol) :
    (∃ first inside last, pieces slice = [.group first inside last]) ∨
      (∃ symbol, slice = [symbol]) ∨ IsCompound slice := by
  cases hunwrap : unwrap? slice with
  | some inside =>
      obtain ⟨first, last, hgroup⟩ := unwrap?_eq_some_iff.mp hunwrap
      exact Or.inl ⟨first, inside, last, hgroup⟩
  | none =>
      by_cases hlength : slice.length = 1
      · exact Or.inr (Or.inl (List.length_eq_one_iff.mp hlength))
      · exact Or.inr (Or.inr ⟨hunwrap, hlength⟩)

/-- A slice of several pieces is neither a group nor a single symbol. -/
theorem isCompound_of_pieces {slice : List Symbol} (h : (pieces slice).length ≠ 1) :
    IsCompound slice := by
  constructor
  · cases hunwrap : unwrap? slice with
    | none => rfl
    | some inside =>
        obtain ⟨first, last, hgroup⟩ := unwrap?_eq_some_iff.mp hunwrap
        simp [hgroup] at h
  · intro hlength
    obtain ⟨symbol, rfl⟩ := List.length_eq_one_iff.mp hlength
    simp at h

/-- A slice with further pieces beside one of its pieces is compound. -/
theorem isCompound_of_parts {slice : List Symbol} {piece : Piece} {before after : List Piece}
    (hparts : pieces slice = before ++ piece :: after) (hside : before ≠ [] ∨ after ≠ []) :
    IsCompound slice := by
  apply isCompound_of_pieces
  rw [hparts, List.length_append, List.length_cons]
  rcases hside with hbefore | hafter
  · have := List.length_pos_iff.mpr hbefore
    omega
  · have := List.length_pos_iff.mpr hafter
    omega

def readingAround (catalog : Catalog) (cut : Cut) : Reading :=
  let side := catalog.reading cut.operator.precedence
  match cut.operator.placement with
  | .before => .unary cut (side cut.right)
  | .after => .unary cut (side cut.left)
  | .between => .binary cut (side cut.left) (side cut.right)

theorem reading_of_group {first last : Symbol} {inside : List Symbol}
    (h : pieces (dropSentinels symbols) = [.group first inside last]) :
    catalog.reading loosest symbols =
      .group (dropSentinels symbols) (catalog.reading 0 inside) := by
  have hunwrap : unwrap? (dropSentinels symbols) = some inside :=
    unwrap?_eq_some_iff.mpr ⟨first, last, h⟩
  rw [reading]
  split
  · rename_i inner hinner
    rw [hunwrap, Option.some.injEq] at hinner
    rw [hinner]
  · rename_i hnone
    rw [hunwrap] at hnone
    contradiction

theorem reading_of_single {symbol : Symbol} (h : dropSentinels symbols = [symbol]) :
    catalog.reading loosest symbols = symbol.reading := by
  have hunwrap := unwrap?_singleton symbol
  rw [reading]
  split
  · rename_i inner hinner
    rw [h, hunwrap] at hinner
    contradiction
  · split
    · rename_i found hfound
      rw [h] at hfound
      cases hfound
      rfl
    · rename_i hsingle
      exact absurd h (hsingle symbol)

/-- A compound slice is understood by its cut. -/
theorem reading_of_compound (h : IsCompound (dropSentinels symbols)) :
    catalog.reading loosest symbols =
      match catalog.cut? loosest (dropSentinels symbols) with
      | none => .unresolved (dropSentinels symbols)
      | some (.error error) => .invalid error
      | some (.ok cut) => catalog.readingAround cut := by
  obtain ⟨hunwrap, hlength⟩ := h
  rw [reading]
  split
  · rename_i inner hinner
    rw [hunwrap] at hinner
    contradiction
  · split
    · rename_i symbol hsingle
      rw [hsingle] at hlength
      exact absurd rfl hlength
    · split
      · rename_i hcut
        rw [hcut]
      · rename_i error hcut
        rw [hcut]
      · rename_i cut hcut
        simp only [hcut]
        rfl

theorem reading_congr {others : List Symbol} (h : dropSentinels symbols = dropSentinels others) :
    catalog.reading loosest symbols = catalog.reading loosest others := by
  rw [reading, reading]
  dsimp only
  generalize dropSentinels others = slice at h ⊢
  subst h
  rfl

/-- What holds of every list of symbols may be proved along its reading: the
inside of a group and both sides of a cut come before the list they are part of. -/
theorem reading_induction {motive : Nat → List Symbol → Prop}
    (group : ∀ (loosest : Nat) (symbols : List Symbol) (first last : Symbol)
      (inside : List Symbol),
      pieces (dropSentinels symbols) = [.group first inside last] → motive 0 inside →
        motive loosest symbols)
    (single : ∀ (loosest : Nat) (symbols : List Symbol) (symbol : Symbol),
      dropSentinels symbols = [symbol] → motive loosest symbols)
    (unresolved : ∀ (loosest : Nat) (symbols : List Symbol),
      IsCompound (dropSentinels symbols) →
        catalog.cut? loosest (dropSentinels symbols) = none → motive loosest symbols)
    (invalid : ∀ (loosest : Nat) (symbols : List Symbol) (error : EvalError),
      IsCompound (dropSentinels symbols) →
        catalog.cut? loosest (dropSentinels symbols) = some (.error error) →
          motive loosest symbols)
    (cut : ∀ (loosest : Nat) (symbols : List Symbol) (cut : Cut),
      IsCompound (dropSentinels symbols) →
        catalog.cut? loosest (dropSentinels symbols) = some (.ok cut) →
          motive cut.operator.precedence cut.left →
            motive cut.operator.precedence cut.right → motive loosest symbols)
    (loosest : Nat) (symbols : List Symbol) : motive loosest symbols := by
  induction hsize : symbols.length using Nat.strongRecOn generalizing loosest symbols with
  | _ size ih =>
    subst hsize
    have hshorter := length_dropSentinels_le symbols
    rcases slice_cases (dropSentinels symbols) with
      ⟨first, inside, last, hgroup⟩ | ⟨symbol, hsingle⟩ | hcompound
    · have hinside := length_lt_of_unwrap? (unwrap?_eq_some_iff.mpr ⟨first, last, hgroup⟩)
      exact group loosest symbols first last inside hgroup
        (ih inside.length (by omega) 0 inside rfl)
    · exact single loosest symbols symbol hsingle
    · cases hcut : catalog.cut? loosest (dropSentinels symbols) with
      | none => exact unresolved loosest symbols hcompound hcut
      | some found =>
          cases found with
          | error error => exact invalid loosest symbols error hcompound hcut
          | ok found =>
              obtain ⟨hleft, hright⟩ := length_lt_of_cut? hcut
              exact cut loosest symbols found hcompound hcut
                (ih found.left.length (by omega) _ _ rfl)
                (ih found.right.length (by omega) _ _ rfl)

end Catalog

end Calculator
