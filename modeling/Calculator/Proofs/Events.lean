import Calculator.Proofs.Evaluation

/-!
The events of an evaluation. Operands come before the split they belong to, in
the order in which they stand, and a failure ends the run. Every split event
stands for a cut that was taken within the list, with operands that have values.
-/

namespace Calculator

open Piece

namespace Reading

variable {cut : Cut} {operand left right : Reading} {value first second : Float}
  {error : EvalError}

theorem events_group (slice : List Symbol) (inside : Reading) :
    (Reading.group slice inside).evaluate.events =
      .unwrapping slice :: inside.evaluate.events := rfl

theorem events_unary (h : operand.evaluate.result = .ok value) :
    (Reading.unary cut operand).evaluate.events = operand.evaluate.events ++ [.split cut] := by
  rw [evaluate, Traced.bind_of_ok h]
  rfl

theorem events_unary_of_error (h : operand.evaluate.result = .error error) :
    (Reading.unary cut operand).evaluate.events = operand.evaluate.events := by
  rw [evaluate, Traced.bind_of_error h]

theorem events_binary (hleft : left.evaluate.result = .ok first)
    (hright : right.evaluate.result = .ok second) :
    (Reading.binary cut left right).evaluate.events =
      left.evaluate.events ++ (right.evaluate.events ++ [.split cut]) := by
  rw [evaluate, Traced.bind_of_ok hleft, Traced.bind_of_ok hright]
  rfl

theorem events_binary_of_left_error (h : left.evaluate.result = .error error) :
    (Reading.binary cut left right).evaluate.events = left.evaluate.events := by
  rw [evaluate, Traced.bind_of_error h]

theorem events_binary_of_right_error (hleft : left.evaluate.result = .ok first)
    (hright : right.evaluate.result = .error error) :
    (Reading.binary cut left right).evaluate.events =
      left.evaluate.events ++ right.evaluate.events := by
  rw [evaluate, Traced.bind_of_ok hleft, Traced.bind_of_error hright]

/-- A split event below an operator of one operand is that operator's own, or
one of its operand. -/
theorem split_mem_unary {found : Cut}
    (h : .split found ∈ (Reading.unary cut operand).evaluate.events) :
    .split found ∈ operand.evaluate.events ∨
      found = cut ∧ ∃ value, operand.evaluate.result = .ok value := by
  cases hresult : operand.evaluate.result with
  | error error =>
      rw [events_unary_of_error hresult] at h
      exact Or.inl h
  | ok value =>
      rw [events_unary hresult] at h
      rcases List.mem_append.mp h with inOperand | own
      · exact Or.inl inOperand
      · exact Or.inr ⟨by simpa using own, value, rfl⟩

theorem split_mem_binary {found : Cut}
    (h : .split found ∈ (Reading.binary cut left right).evaluate.events) :
    .split found ∈ left.evaluate.events ∨ .split found ∈ right.evaluate.events ∨
      found = cut ∧ (∃ value, left.evaluate.result = .ok value) ∧
        ∃ value, right.evaluate.result = .ok value := by
  cases hleft : left.evaluate.result with
  | error error =>
      rw [events_binary_of_left_error hleft] at h
      exact Or.inl h
  | ok first =>
      cases hright : right.evaluate.result with
      | error error =>
          rw [events_binary_of_right_error hleft hright] at h
          rcases List.mem_append.mp h with inLeft | inRight
          · exact Or.inl inLeft
          · exact Or.inr (Or.inl inRight)
      | ok second =>
          rw [events_binary hleft hright] at h
          rcases List.mem_append.mp h with inLeft | later
          · exact Or.inl inLeft
          · rcases List.mem_append.mp later with inRight | own
            · exact Or.inr (Or.inl inRight)
            · exact Or.inr (Or.inr ⟨by simpa using own, ⟨first, rfl⟩, second, rfl⟩)

end Reading

theorem Symbol.events_reading (symbol : Symbol) : symbol.reading.evaluate.events = [] := by
  cases symbol <;> rfl

namespace Catalog

variable {catalog : Catalog} {loosest : Nat} {symbols : List Symbol}

theorem isInfix_inside {slice inside : List Symbol} {first last : Symbol}
    (h : pieces slice = [.group first inside last]) : inside <:+: slice := by
  obtain ⟨_, _, _, _, -, -, -, hslice⟩ := eq_of_pieces_eq_group h
  exact ⟨[first], [last], by rw [hslice, List.singleton_append, List.cons_append]⟩

theorem isInfix_sides {slice : List Symbol} {cut : Cut}
    (h : catalog.cut? loosest slice = some (.ok cut)) :
    cut.left <:+: slice ∧ cut.right <:+: slice := by
  obtain ⟨⟨length, hslice⟩, -⟩ := slice_eq_of_cut? h
  rw [hslice]
  exact ⟨(List.prefix_append _ _).isInfix,
    (List.suffix_append_of_suffix (List.suffix_cons _ _)).isInfix⟩

/-- A side of a cut where its operator has an operand with a value, or where it
has none and nothing stands. -/
def IsOperand (catalog : Catalog) (precedence : Nat) (side : List Symbol) : Prop :=
  side = [] ∨ ∃ value, catalog.Evaluates precedence side value

/-- Around a cut there are the splits of its sides, and its own one once its
operands have values. -/
theorem split_mem_readingAround {slice : List Symbol} {cut found : Cut}
    (hcut : catalog.cut? loosest slice = some (.ok cut))
    (h : .split found ∈ (catalog.readingAround cut).evaluate.events) :
    .split found ∈ (catalog.evaluateFrom cut.operator.precedence cut.left).events ∨
      .split found ∈ (catalog.evaluateFrom cut.operator.precedence cut.right).events ∨
      found = cut ∧ catalog.IsOperand cut.operator.precedence cut.left ∧
        catalog.IsOperand cut.operator.precedence cut.right := by
  obtain ⟨-, -, hleft, hright⟩ := slice_eq_of_cut? hcut
  unfold readingAround at h
  cases hplacement : cut.operator.placement with
  | before =>
      simp only [hplacement] at h
      rcases Reading.split_mem_unary h with inOperand | ⟨rfl, value, hvalue⟩
      · exact Or.inr (Or.inl inOperand)
      · exact Or.inr (Or.inr ⟨rfl, Or.inl (hleft hplacement),
          Or.inr ⟨value, result_eq_ok_iff.mp hvalue⟩⟩)
  | after =>
      simp only [hplacement] at h
      rcases Reading.split_mem_unary h with inOperand | ⟨rfl, value, hvalue⟩
      · exact Or.inl inOperand
      · exact Or.inr (Or.inr ⟨rfl, Or.inr ⟨value, result_eq_ok_iff.mp hvalue⟩,
          Or.inl (hright hplacement)⟩)
  | between =>
      simp only [hplacement] at h
      rcases Reading.split_mem_binary h with inLeft | inRight | ⟨rfl, ⟨first, hfirst⟩,
        second, hsecond⟩
      · exact Or.inl inLeft
      · exact Or.inr (Or.inl inRight)
      · exact Or.inr (Or.inr ⟨rfl, Or.inr ⟨first, result_eq_ok_iff.mp hfirst⟩,
          Or.inr ⟨second, result_eq_ok_iff.mp hsecond⟩⟩)

/-- Every split of a run is the cut of a slice of the list, and both its sides
are operands. -/
theorem exists_cut_of_split_mem {found : Cut}
    (h : .split found ∈ (catalog.evaluateFrom loosest symbols).events) :
    ∃ start slice, slice <:+: symbols ∧ catalog.cut? start slice = some (.ok found) ∧
      catalog.IsOperand found.operator.precedence found.left ∧
      catalog.IsOperand found.operator.precedence found.right := by
  induction loosest, symbols using @reading_induction catalog with
  | group loosest symbols first last inside hgroup ih =>
      rw [evaluateFrom, reading_of_group hgroup, Reading.events_group] at h
      obtain ⟨start, slice, hslice, hcut⟩ := ih ((List.mem_cons.mp h).resolve_left (by simp))
      exact ⟨start, slice,
        hslice.trans ((isInfix_inside hgroup).trans (isInfix_dropSentinels symbols)), hcut⟩
  | single loosest symbols symbol hsingle =>
      rw [evaluateFrom, reading_of_single hsingle, symbol.events_reading] at h
      contradiction
  | unresolved loosest symbols hcompound hnone =>
      rw [evaluateFrom, reading_of_compound hcompound, hnone] at h
      simp [Reading.evaluate, Traced.emit_bind, Traced.fail] at h
  | invalid loosest symbols error hcompound herror =>
      rw [evaluateFrom, reading_of_compound hcompound, herror] at h
      simp [Reading.evaluate, Traced.fail] at h
  | cut loosest symbols cut hcompound hcut ihleft ihright =>
      rw [evaluateFrom, reading_of_compound hcompound, hcut] at h
      obtain ⟨hleft, hright⟩ := isInfix_sides hcut
      have hwhole := isInfix_dropSentinels symbols
      rcases split_mem_readingAround hcut h with inLeft | inRight | ⟨rfl, hoperands⟩
      · obtain ⟨start, slice, hslice, hfound⟩ := ihleft inLeft
        exact ⟨start, slice, hslice.trans (hleft.trans hwhole), hfound⟩
      · obtain ⟨start, slice, hslice, hfound⟩ := ihright inRight
        exact ⟨start, slice, hslice.trans (hright.trans hwhole), hfound⟩
      · exact ⟨loosest, _, hwhole, hcut, hoperands⟩

/-- An operator between two operands that have values is applied. -/
theorem split_mem_of_cut? {cut : Cut} {first second : Float}
    (hcompound : IsCompound (dropSentinels symbols))
    (hcut : catalog.cut? loosest (dropSentinels symbols) = some (.ok cut))
    (hplacement : cut.operator.placement = .between)
    (hleft : catalog.Evaluates cut.operator.precedence cut.left first)
    (hright : catalog.Evaluates cut.operator.precedence cut.right second) :
    .split cut ∈ (catalog.evaluateFrom loosest symbols).events := by
  rw [evaluateFrom, reading_of_compound hcompound, hcut]
  simp only [readingAround, hplacement]
  have hfirst := result_eq_ok_iff.mpr hleft
  have hsecond := result_eq_ok_iff.mpr hright
  rw [Reading.events_binary hfirst hsecond]
  exact List.mem_append_right _ (List.mem_append_right _ (List.mem_singleton.mpr rfl))

/-- Whatever becomes of an operator between its operands, its left operand is
evaluated. -/
theorem mem_events_of_left {cut : Cut} {event : Event}
    (hcompound : IsCompound (dropSentinels symbols))
    (hcut : catalog.cut? loosest (dropSentinels symbols) = some (.ok cut))
    (hplacement : cut.operator.placement = .between)
    (hevent : event ∈ (catalog.evaluateFrom cut.operator.precedence cut.left).events) :
    event ∈ (catalog.evaluateFrom loosest symbols).events := by
  rw [evaluateFrom, reading_of_compound hcompound, hcut]
  simp only [readingAround, hplacement]
  change event ∈ (catalog.reading cut.operator.precedence cut.left).evaluate.events at hevent
  cases hleft : (catalog.reading cut.operator.precedence cut.left).evaluate.result with
  | error error =>
      rw [Reading.events_binary_of_left_error hleft]
      exact hevent
  | ok first =>
      cases hright : (catalog.reading cut.operator.precedence cut.right).evaluate.result with
      | error error =>
          rw [Reading.events_binary_of_right_error hleft hright]
          exact List.mem_append_left _ hevent
      | ok second =>
          rw [Reading.events_binary hleft hright]
          exact List.mem_append_left _ hevent

/-- The events that mark where an evaluation starts and ends are no splits. -/
theorem split_mem_evaluate_iff {cut : Cut} :
    .split cut ∈ (catalog.evaluate symbols).events ↔
      .split cut ∈ (catalog.evaluateFrom 0 symbols).events := by
  unfold evaluate
  rw [Traced.emit_bind, List.mem_cons, or_iff_right (by simp)]
  cases h : (catalog.evaluateFrom 0 symbols).result with
  | error error => rw [Traced.bind_of_error h]
  | ok value =>
      rw [Traced.bind_of_ok h, List.mem_append, or_iff_left]
      simp [Traced.emit_bind]

end Catalog

end Calculator
