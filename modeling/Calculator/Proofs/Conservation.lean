import Calculator.Catalog.Standard
import Calculator.Proofs.Events
import Calculator.Proofs.WellNested

/-!
A successful evaluation uses every symbol of its list exactly once. The splits
that it reports stand, in some order, for the operator symbols of the list, it
unwraps one group for every opening bracket, and every split between two
operands joins two numbers into one until a single value is left.
-/

namespace Calculator

open Piece

def Symbol.value? : Symbol → Option Float
  | .number value _ => some value
  | _ => none

def Event.split? : Event → Option Cut
  | .split cut => some cut
  | _ => none

def Event.unwrapped? : Event → Option (List Symbol)
  | .unwrapping slice => some slice
  | _ => none

def splitsOf (events : List Event) : List Cut := events.filterMap Event.split?

def groupsOf (events : List Event) : List (List Symbol) := events.filterMap Event.unwrapped?

def splitsBetween (events : List Event) : List Cut :=
  (splitsOf events).filter fun cut => cut.operator.placement = .between

/-- The symbols of a list are used exactly once by the events. -/
structure Conserves (symbols : List Symbol) (events : List Event) : Prop where
  operators : ((splitsOf events).map Cut.pivot).Perm (symbols.filterMap Symbol.operator?)
  groups : (groupsOf events).length = sideCount .opening symbols
  numbers : (symbols.filterMap Symbol.value?).length = 1 + (splitsBetween events).length

namespace Conserves

variable {symbols left right : List Symbol} {events earlier later : List Event}

/-- Sentinels at the ends are not used by anything. -/
theorem of_dropSentinels (h : Conserves (dropSentinels symbols) events) :
    Conserves symbols events := by
  obtain ⟨before, after, hsymbols, hbefore, hafter⟩ := exists_eq_dropSentinels symbols
  have hunused : before.filterMap Symbol.operator? = [] ∧ before.filterMap Symbol.value? = [] ∧
      sideCount .opening before = 0 := by
    rcases hbefore with rfl | rfl <;> exact ⟨rfl, rfl, rfl⟩
  have hunused' : after.filterMap Symbol.operator? = [] ∧ after.filterMap Symbol.value? = [] ∧
      sideCount .opening after = 0 := by
    rcases hafter with rfl | rfl <;> exact ⟨rfl, rfl, rfl⟩
  constructor
  · have hoperators := h.operators
    rw [hsymbols]
    simpa [hunused, hunused'] using hoperators
  · have hgroups := h.groups
    rw [hsymbols]
    simpa [hunused, hunused'] using hgroups
  · have hnumbers := h.numbers
    rw [hsymbols]
    simpa [hunused, hunused'] using hnumbers

theorem number (value : Float) (length : Nat) : Conserves [.number value length] [] :=
  ⟨.nil, rfl, rfl⟩

theorem group {pair pair' : BracketPair} {firstLength lastLength : Nat} (slice : List Symbol)
    (h : Conserves symbols events) :
    Conserves
      (.bracket pair .opening firstLength :: (symbols ++ [.bracket pair' .closing lastLength]))
      (.unwrapping slice :: events) := by
  obtain ⟨hoperators, hgroups, hnumbers⟩ := h
  constructor
  · simpa [splitsOf, List.filterMap_cons, Event.split?, Symbol.operator?] using hoperators
  · rw [sideCount_cons_self rfl, sideCount_append, sideCount_cons_of_ne (by simp [Symbol.side?]),
      ← hgroups]
    rfl
  · simpa [splitsBetween, splitsOf, List.filterMap_cons, Event.split?, Symbol.value?]
      using hnumbers

/-- A split around an operator with one operand adds its operator symbol, on
whichever side of the operand it stands. -/
theorem unary {cut : Cut} (h : Conserves symbols events)
    (hplacement : cut.operator.placement ≠ .between) (length : Nat) :
    Conserves (.operator cut.pivot length :: symbols) (events ++ [.split cut]) ∧
      Conserves (symbols ++ [.operator cut.pivot length]) (events ++ [.split cut]) := by
  obtain ⟨hoperators, hgroups, hnumbers⟩ := h
  have hsplits : splitsOf (events ++ [.split cut]) = splitsOf events ++ [cut] := by
    simp [splitsOf, Event.split?]
  have hbetween : splitsBetween (events ++ [.split cut]) = splitsBetween events := by
    simp [splitsBetween, hsplits, hplacement]
  have hunwrapped : groupsOf (events ++ [.split cut]) = groupsOf events := by
    simp [groupsOf, Event.unwrapped?]
  have hside : (Symbol.operator cut.pivot length).side? ≠ some .opening := by simp [Symbol.side?]
  constructor
  · refine ⟨?_, ?_, ?_⟩
    · rw [hsplits, List.map_append]
      exact (List.perm_append_singleton _ _).trans (hoperators.cons cut.pivot)
    · rw [hunwrapped, sideCount_cons_of_ne hside, hgroups]
    · rw [hbetween, List.filterMap_cons_none rfl, hnumbers]
  · refine ⟨?_, ?_, ?_⟩
    · rw [hsplits, List.map_append, List.filterMap_append]
      exact hoperators.append_right [cut.pivot]
    · rw [hunwrapped, sideCount_append, sideCount_cons_of_ne hside, hgroups]
      rfl
    · rw [hbetween, List.filterMap_append, List.length_append, hnumbers]
      rfl

/-- A split between two operands adds its operator symbol and joins the numbers
of its operands. -/
theorem between {cut : Cut} (hleft : Conserves left earlier) (hright : Conserves right later)
    (hplacement : cut.operator.placement = .between) (length : Nat) :
    Conserves (left ++ .operator cut.pivot length :: right)
      (earlier ++ (later ++ [.split cut])) := by
  have hsplits : splitsOf (earlier ++ (later ++ [.split cut])) =
      splitsOf earlier ++ (splitsOf later ++ [cut]) := by
    simp [splitsOf, Event.split?]
  have hside : (Symbol.operator cut.pivot length).side? ≠ some .opening := by simp [Symbol.side?]
  constructor
  · rw [hsplits, List.map_append, List.map_append, List.filterMap_append]
    exact hleft.operators.append
      ((List.perm_append_singleton _ _).trans (hright.operators.cons cut.pivot))
  · rw [sideCount_append, sideCount_cons_of_ne hside, ← hleft.groups, ← hright.groups]
    simp [groupsOf, Event.unwrapped?]
  · have hcount : (splitsBetween (earlier ++ (later ++ [.split cut]))).length =
        (splitsBetween earlier).length + ((splitsBetween later).length + 1) := by
      simp [splitsBetween, hsplits, hplacement]
    rw [hcount, List.filterMap_append, List.filterMap_cons_none rfl, List.length_append,
      hleft.numbers, hright.numbers]
    omega

end Conserves

namespace Catalog

variable {catalog : Catalog} {loosest : Nat} {symbols : List Symbol} {value : Float}

/-- What has a value is used up by the events on the way to it. -/
theorem Evaluates.conserves (h : catalog.Evaluates loosest symbols value) :
    Conserves symbols (catalog.evaluateFrom loosest symbols).events := by
  induction h with
  | @number loosest length symbols value hsingle =>
      apply Conserves.of_dropSentinels
      rw [evaluateFrom, reading_of_single hsingle, Symbol.events_reading, hsingle]
      exact .number value length
  | @group loosest symbols inside first last value hgroup _ ih =>
      apply Conserves.of_dropSentinels
      obtain ⟨pair, firstLength, pair', lastLength, rfl, rfl, -, hslice⟩ :=
        eq_of_pieces_eq_group hgroup
      rw [evaluateFrom, reading_of_group hgroup, Reading.events_group, hslice]
      exact ih.group _
  | @before loosest symbols cut operand value hcompound hcut hplacement hoperand _ ih =>
      apply Conserves.of_dropSentinels
      obtain ⟨⟨length, hslice⟩, -, hleft, -⟩ := slice_eq_of_cut? hcut
      rw [evaluateFrom, reading_of_compound hcompound, hcut]
      simp only [readingAround, hplacement]
      rw [Reading.events_unary (result_eq_ok_iff.mpr hoperand), hslice, hleft hplacement]
      exact (ih.unary (by simp [hplacement]) length).1
  | @after loosest symbols cut operand value hcompound hcut hplacement hoperand _ ih =>
      apply Conserves.of_dropSentinels
      obtain ⟨⟨length, hslice⟩, -, -, hright⟩ := slice_eq_of_cut? hcut
      rw [evaluateFrom, reading_of_compound hcompound, hcut]
      simp only [readingAround, hplacement]
      rw [Reading.events_unary (result_eq_ok_iff.mpr hoperand), hslice, hright hplacement]
      exact (ih.unary (by simp [hplacement]) length).2
  | @between loosest symbols cut first second value hcompound hcut hplacement hfirst hsecond _
      ihleft ihright =>
      apply Conserves.of_dropSentinels
      obtain ⟨⟨length, hslice⟩, -⟩ := slice_eq_of_cut? hcut
      rw [evaluateFrom, reading_of_compound hcompound, hcut]
      simp only [readingAround, hplacement]
      rw [Reading.events_binary (result_eq_ok_iff.mpr hfirst) (result_eq_ok_iff.mpr hsecond),
        hslice]
      exact ihleft.between ihright hplacement length

/-- A successful evaluation uses every symbol exactly once, whatever the catalog
declares and wherever sentinels stand. The brackets are well nested, each of them
is unwrapped once, the splits are those of the operator symbols, and every split
between two operands takes one number away until one is left. -/
theorem uses_every_symbol_once (catalog : Catalog) (loosest : Nat) (symbols : List Symbol)
    (value : Float) (h : (catalog.evaluateFrom loosest symbols).result = .ok value) :
    let events := (catalog.evaluateFrom loosest symbols).events
    WellNested symbols ∧
      (splitsOf events).length = (symbols.filterMap Symbol.operator?).length ∧
      ((splitsOf events).map Cut.pivot).Perm (symbols.filterMap Symbol.operator?) ∧
      (groupsOf events).length = sideCount .opening symbols ∧
      (symbols.filterMap Symbol.value?).length = 1 + (splitsBetween events).length := by
  intro events
  have hevaluates := result_eq_ok_iff.mp h
  obtain ⟨hoperators, hgroups, hnumbers⟩ := hevaluates.conserves
  have hcount := hoperators.length_eq
  rw [List.length_map] at hcount
  exact ⟨hevaluates.balanced.wellNested, hcount, hoperators, hgroups, hnumbers⟩

/-- The negated sum `-(1 + 2)`, with a start sentinel behind the opening
bracket. -/
theorem uses_every_symbol_once_negated :
    let pair := standardBrackets[0]
    let symbols : List Symbol :=
      [.operator .negation 1, .bracket pair .opening 1, .start, .number 1 1,
        .operator .addition 1, .number 2 1, .bracket pair .closing 1]
    let events := (standard.evaluateFrom 0 symbols).events
    (standard.evaluateFrom 0 symbols).result = .ok (-3) ∧
      WellNested symbols ∧
      (splitsOf events).length = (symbols.filterMap Symbol.operator?).length ∧
      ((splitsOf events).map Cut.pivot).Perm (symbols.filterMap Symbol.operator?) ∧
      (groupsOf events).length = sideCount .opening symbols ∧
      (symbols.filterMap Symbol.value?).length = 1 + (splitsBetween events).length := by
  intro pair symbols events
  let inside : List Symbol := [.start, .number 1 1, .operator .addition 1, .number 2 1]
  let operand : List Symbol := .bracket pair .opening 1 :: (inside ++ [.bracket pair .closing 1])
  have hplus : standard.cut? 0 (dropSentinels inside) =
      some (.ok ⟨.addition, [.number 1 1], .addition, [.number 2 1]⟩) := by
    rw [cut?_eq_findSome?_ranked]
    rfl
  have hsum : standard.Evaluates 0 inside 3 :=
    .between ⟨rfl, by decide⟩ hplus rfl .literal .literal
      (congrArg Except.ok (by decide +kernel : (1 + 2 : Float) = 3))
  have hoperand : standard.Evaluates 0 operand 3 := .group rfl hsum
  have hminus : standard.cut? 0 (dropSentinels symbols) =
      some (.ok ⟨.negation, [], .negation, operand⟩) := by
    rw [cut?_eq_findSome?_ranked]
    rfl
  have hsymbols : standard.Evaluates 0 symbols (-3) :=
    .before ⟨rfl, by decide⟩ hminus rfl hoperand rfl
  have hvalue := result_eq_ok_iff.mpr hsymbols
  exact ⟨hvalue, uses_every_symbol_once standard 0 symbols (-3) hvalue⟩

end Catalog

end Calculator
