import Calculator.Proofs.Causes
import Calculator.Proofs.Tiling

/-!
What the events of a run tell about its result. Reading reports every symbol at
the bytes that were read before it, and ends with one event that says where it
fails, if it does. Evaluation reports single steps until its end. What comes last
is the value, or the slice that no operator splits if that is why there is none,
and no step before it says either.
-/

namespace Calculator

def Event.lexed? : Event → Option (Nat × Symbol)
  | .lexed position symbol => some (position, symbol)
  | _ => none

def Event.isDeadEnd : Event → Bool
  | .noTokenMatches _ | .severalTokensMatch _ => true
  | _ => false

def LexError.event : LexError → Event
  | .unexpected position _ => .noTokenMatches position
  | .ambiguous position _ => .severalTokensMatch position

theorem LexError.lexed?_event (error : LexError) : error.event.lexed? = none := by
  cases error <;> rfl

theorem DeadEnd.event_eq {position : Nat} {text : List Char} {candidates : List Lexeme}
    {event : Event} {error : LexError} (h : DeadEnd position text candidates event error) :
    event = error.event := by
  cases h <;> rfl

section LexedEvents

variable {start place : Nat} {symbol : Symbol} {symbols : List Symbol}

theorem lexed?_lexedEvents_cons (start : Nat) (symbol : Symbol) (rest : List Symbol) :
    (lexedEvents start (symbol :: rest)).filterMap Event.lexed? =
      (start, symbol) :: (lexedEvents (start + symbol.length) rest).filterMap Event.lexed? := by
  have hread : (Event.lexed start symbol).lexed? = some (start, symbol) := rfl
  rw [lexedEvents, List.filterMap_cons_some hread]

/-- Reading reports a symbol behind the bytes of the symbols reported before it. -/
theorem place_eq_of_lexedEvents {before after : List (Nat × Symbol)}
    (h : (lexedEvents start symbols).filterMap Event.lexed? = before ++ (place, symbol) :: after) :
    place = start + byteLength (before.map Prod.snd) := by
  induction symbols generalizing start before with
  | nil => simp [lexedEvents] at h
  | cons first rest ih =>
      rw [lexed?_lexedEvents_cons] at h
      cases before with
      | nil =>
          cases h
          rfl
      | cons reported before =>
          obtain ⟨rfl, hrest⟩ := List.cons.inj h
          rw [ih hrest, List.map_cons, byteLength_cons, Nat.add_assoc]

/-- Every symbol takes a byte at least, so the places go up. -/
theorem pairwise_lexedEvents (h : ∀ symbol ∈ symbols, 1 ≤ symbol.length) :
    (((lexedEvents start symbols).filterMap Event.lexed?).map Prod.fst).Pairwise (· < ·) := by
  induction symbols generalizing start with
  | nil => exact List.Pairwise.nil
  | cons first rest ih =>
      rw [lexed?_lexedEvents_cons, List.map_cons, List.pairwise_cons]
      refine ⟨?_, ih fun symbol member => h symbol (List.mem_cons_of_mem _ member)⟩
      intro place member
      obtain ⟨⟨place, symbol⟩, hreported, rfl⟩ := List.mem_map.mp member
      obtain ⟨before, after, hsplit⟩ := List.append_of_mem hreported
      have hpositive := h first List.mem_cons_self
      rw [place_eq_of_lexedEvents hsplit]
      dsimp only
      omega

theorem snd_lexedEvents (start : Nat) (symbols : List Symbol) :
    ((lexedEvents start symbols).filterMap Event.lexed?).map Prod.snd = symbols := by
  induction symbols generalizing start with
  | nil => rfl
  | cons symbol rest ih => rw [lexed?_lexedEvents_cons, List.map_cons, ih]

theorem isDeadEnd_of_mem_lexedEvents {event : Event} (h : event ∈ lexedEvents start symbols) :
    event.isDeadEnd = false := by
  obtain ⟨before, symbol, after, -, rfl⟩ := exists_of_mem_lexedEvents h
  rfl

end LexedEvents

namespace Catalog

theorem Lexes.length_pos {catalog : Catalog} {previous last : Symbol} {text rest : List Char}
    {symbols : List Symbol} (h : catalog.Lexes previous text symbols last rest) :
    ∀ symbol ∈ symbols, 1 ≤ symbol.length := by
  intro symbol member
  obtain ⟨before, after, rfl⟩ := List.append_of_mem member
  obtain ⟨between, lexeme, -, hlexeme, rfl, -⟩ := h.exists_step
  exact length_pos_of_lexemes hlexeme

/-- Reading reports the symbols at the head of a text, and then how it ends. -/
theorem exists_events_tokenize (catalog : Catalog) (source : String) :
    ∃ symbols last rest ending, catalog.Lexes .start source.toList symbols last rest ∧
      (catalog.tokenize source).events =
        .tokenizing source.utf8ByteSize :: (lexedEvents 0 symbols ++ [ending]) ∧
      ((catalog.tokenize source).result = .ok (.start :: symbols ++ [.finish]) ∧
          ending = .tokenized (symbols.length + 2) ∨
        ∃ error, (catalog.tokenize source).result = .error error ∧ ending = error.event) := by
  cases hresult : (catalog.tokenize source).result with
  | error error =>
      obtain ⟨symbols, last, rest, event, hlexes, -, hend, hevents⟩ := tokenize_eq_error hresult
      exact ⟨symbols, last, rest, event, hlexes, hevents, .inr ⟨error, rfl, hend.event_eq⟩⟩
  | ok all =>
      obtain ⟨symbols, last, hlexes, rfl⟩ := result_tokenize_eq_ok_iff.mp hresult
      refine ⟨symbols, last, [], _, hlexes, ?_, .inl ⟨rfl, rfl⟩⟩
      rw [events_tokenize, lexFrom_of_lexes hlexes, lexFrom_nil]
      simp [Traced.behind, Except.map]

end Catalog

structure ReportsReading (run : Traced LexError (List Symbol)) : Prop where
  increasing : ((run.events.filterMap Event.lexed?).map Prod.fst).Pairwise (· < ·)
  behind : ∀ before position symbol after,
    run.events.filterMap Event.lexed? = before ++ (position, symbol) :: after →
      position = byteLength (before.map Prod.snd)
  of_ok : ∀ all, run.result = .ok all →
    all = .start :: (run.events.filterMap Event.lexed?).map Prod.snd ++ [.finish] ∧
      ∀ event ∈ run.events, event.isDeadEnd = false
  of_error : ∀ error, run.result = .error error →
    ∃ steps, run.events = steps ++ [error.event] ∧ ∀ event ∈ steps, event.isDeadEnd = false

theorem Catalog.reportsReading (catalog : Catalog) (source : String) :
    ReportsReading (catalog.tokenize source) := by
  obtain ⟨symbols, last, rest, ending, hlexes, hevents, hend⟩ :=
    catalog.exists_events_tokenize source
  have hreported : (catalog.tokenize source).events.filterMap Event.lexed? =
      (lexedEvents 0 symbols).filterMap Event.lexed? := by
    have hlast : ending.lexed? = none := by
      rcases hend with ⟨-, rfl⟩ | ⟨error, -, rfl⟩
      · rfl
      · exact error.lexed?_event
    rw [hevents, List.filterMap_cons_none rfl, List.filterMap_append,
      List.filterMap_cons_none hlast, List.filterMap_nil, List.append_nil]
  have hsteps : ∀ event ∈ Event.tokenizing source.utf8ByteSize :: lexedEvents 0 symbols,
      event.isDeadEnd = false := by
    intro event member
    rcases List.mem_cons.mp member with rfl | later
    · rfl
    · exact isDeadEnd_of_mem_lexedEvents later
  refine ⟨?_, ?_, ?_, ?_⟩
  · rw [hreported]
    exact pairwise_lexedEvents hlexes.length_pos
  · intro before position symbol after hsplit
    rw [hreported] at hsplit
    rw [place_eq_of_lexedEvents hsplit, Nat.zero_add]
  · intro all hok
    rcases hend with ⟨hresult, rfl⟩ | ⟨error, hresult, -⟩
    · rw [hresult] at hok
      cases hok
      refine ⟨by rw [hreported, snd_lexedEvents], ?_⟩
      rw [hevents, ← List.cons_append]
      intro event member
      rcases List.mem_append.mp member with step | last
      · exact hsteps event step
      · rw [List.mem_singleton.mp last]
        rfl
    · rw [hresult] at hok
      contradiction
  · intro error herror
    rcases hend with ⟨hresult, -⟩ | ⟨found, hresult, rfl⟩
    · rw [hresult] at herror
      contradiction
    · rw [hresult] at herror
      cases herror
      exact ⟨_, hevents, hsteps⟩

/-- A run of which every event is a single step, up to the slice that no operator
splits if that is why it fails. -/
inductive Reported {α : Type} : Traced EvalError α → Prop where
  | resolved {run : Traced EvalError α} (hsteps : ∀ event ∈ run.events, event.level = .trace)
      (hresult : ∀ text, run.result ≠ .error (.unmatchedSymbols text)) : Reported run
  | unresolved {steps : List Event} {slice : List Symbol}
      (hsteps : ∀ event ∈ steps, event.level = .trace) :
      Reported ⟨steps ++ [.unresolved slice], .error (.unmatchedSymbols (spell slice))⟩

namespace Reported

variable {α β : Type}

theorem emit {event : Event} (h : event.level = .trace) : Reported (Traced.emit event) :=
  .resolved (by simpa [Traced.emit] using h) (by simp)

theorem ofExcept {result : Except EvalError α}
    (h : ∀ text, result ≠ .error (.unmatchedSymbols text)) : Reported (Traced.ofExcept result) :=
  .resolved (by simp [Traced.ofExcept]) h

/-- Steps in front of a run are single steps too, and nothing runs after a failure. -/
theorem bind {first : Traced EvalError α} {next : α → Traced EvalError β} (hfirst : Reported first)
    (hnext : ∀ value, Reported (next value)) : Reported (first >>= next) := by
  cases hfirst with
  | resolved hsteps hresult =>
      cases hvalue : first.result with
      | error error =>
          rw [Traced.bind_of_error hvalue]
          refine .resolved hsteps fun text hsame => hresult text ?_
          rw [hvalue]
          exact congrArg Except.error (Except.error.inj hsame)
      | ok value =>
          rw [Traced.bind_of_ok hvalue]
          have hvalue := hnext value
          generalize next value = following at hvalue
          cases hvalue with
          | resolved hlater hresult =>
              exact .resolved (fun event member =>
                (List.mem_append.mp member).elim (hsteps event) (hlater event)) hresult
          | unresolved hlater =>
              rw [← List.append_assoc]
              exact .unresolved fun event member =>
                (List.mem_append.mp member).elim (hsteps event) (hlater event)
  | unresolved hsteps =>
      rw [Traced.bind_of_error rfl]
      exact .unresolved hsteps

end Reported

theorem Operator.apply_ne_unmatchedSymbols (o : Operator) (operands : Operands) (text : String) :
    o.apply operands ≠ .error (.unmatchedSymbols text) := by
  intro h
  rcases apply_eq_error h with ⟨hother, -⟩ | ⟨hother, -⟩ <;> contradiction

namespace Catalog

variable {catalog : Catalog} {loosest : Nat} {symbols : List Symbol}

/-- Both operands are reported before the split, and the split before its value. -/
theorem reported_readingAround {cut : Cut}
    (hleft : Reported (catalog.evaluateFrom cut.operator.precedence cut.left))
    (hright : Reported (catalog.evaluateFrom cut.operator.precedence cut.right)) :
    Reported (catalog.readingAround cut).evaluate := by
  have hsplit (operands : Operands) :
      Reported (Traced.emit (.split cut) >>= fun _ =>
        Traced.ofExcept (cut.operator.apply operands)) :=
    (Reported.emit rfl).bind fun _ =>
      .ofExcept (cut.operator.apply_ne_unmatchedSymbols operands)
  unfold readingAround
  cases cut.operator.placement with
  | before => exact hright.bind fun value => hsplit (.unary value)
  | after => exact hleft.bind fun value => hsplit (.unary value)
  | between => exact hleft.bind fun first => hright.bind fun second => hsplit (.binary first second)

theorem reported_evaluateFrom (catalog : Catalog) (loosest : Nat) (symbols : List Symbol) :
    Reported (catalog.evaluateFrom loosest symbols) := by
  induction loosest, symbols using @reading_induction catalog with
  | group loosest symbols first last inside hgroup ih =>
      rw [evaluateFrom, reading_of_group hgroup]
      exact (Reported.emit rfl).bind fun _ => ih
  | single loosest symbols symbol hsingle =>
      rw [evaluateFrom, reading_of_single hsingle]
      refine .resolved (by simp [symbol.events_reading]) fun text => ?_
      cases symbol <;> simp [Symbol.reading, Reading.evaluate, Traced.fail]
  | unresolved loosest symbols hcompound hnone =>
      rw [evaluateFrom, reading_of_compound hcompound, hnone]
      exact @Reported.unresolved _ [] _ (by simp)
  | invalid loosest symbols error hcompound herror =>
      rw [evaluateFrom, reading_of_compound hcompound, herror]
      obtain ⟨o, -, -, -, hdefect⟩ := exists_defect_of_cut? herror
      refine .ofExcept fun text hsame => ?_
      cases hsame
      rcases Operator.eq_of_defect? hdefect with hother | hother <;> contradiction
  | cut loosest symbols cut hcompound hcut ihleft ihright =>
      rw [evaluateFrom, reading_of_compound hcompound, hcut]
      exact reported_readingAround ihleft ihright

theorem evaluate_of_ok {value : Float}
    (h : (catalog.evaluateFrom 0 symbols).result = .ok value) :
    catalog.evaluate symbols = ⟨.evaluating symbols.length ::
      ((catalog.evaluateFrom 0 symbols).events ++ [.evaluated value]), .ok value⟩ := by
  rw [evaluate, Traced.emit_bind, Traced.bind_of_ok h]
  rfl

theorem evaluate_of_error {error : EvalError}
    (h : (catalog.evaluateFrom 0 symbols).result = .error error) :
    catalog.evaluate symbols = ⟨.evaluating symbols.length ::
      (catalog.evaluateFrom 0 symbols).events, .error error⟩ := by
  rw [evaluate, Traced.emit_bind, Traced.bind_of_error h]

end Catalog

def Event.isOutcome : Event → Bool
  | .unresolved _ | .evaluated _ => true
  | _ => false

/-- An evaluation reports its outcome last, or fails without one. -/
theorem Catalog.evaluate_cases (catalog : Catalog) (symbols : List Symbol) :
    ∃ steps, (∀ event ∈ steps, event.isOutcome = false) ∧
      ((∃ value, catalog.evaluate symbols = ⟨steps ++ [.evaluated value], .ok value⟩) ∨
        (∃ slice, catalog.evaluate symbols =
          ⟨steps ++ [.unresolved slice], .error (.unmatchedSymbols (spell slice))⟩) ∨
        ∃ error, (∀ text, error ≠ .unmatchedSymbols text) ∧
          catalog.evaluate symbols = ⟨steps, .error error⟩) := by
  have hsteps {steps : List Event} (h : ∀ event ∈ steps, event.level = .trace) :
      ∀ event ∈ Event.evaluating symbols.length :: steps, event.isOutcome = false := by
    intro event member
    rcases List.mem_cons.mp member with rfl | later
    · rfl
    · have hlevel := h event later
      cases event with
      | unresolved slice => contradiction
      | evaluated value => contradiction
      | _ => rfl
  have hreported := catalog.reported_evaluateFrom 0 symbols
  generalize hrun : catalog.evaluateFrom 0 symbols = run at hreported
  cases hreported with
  | @unresolved steps slice htrace =>
      refine ⟨.evaluating symbols.length :: steps, hsteps htrace, .inr (.inl ⟨slice, ?_⟩)⟩
      rw [evaluate_of_error (by rw [hrun]), hrun, List.cons_append]
  | resolved htrace hresult =>
      refine ⟨.evaluating symbols.length :: run.events, hsteps htrace, ?_⟩
      cases hvalue : run.result with
      | ok value =>
          refine .inl ⟨value, ?_⟩
          rw [evaluate_of_ok (hrun ▸ hvalue), hrun, List.cons_append]
      | error error =>
          refine .inr (.inr ⟨error, fun text hsame => hresult text (hsame ▸ hvalue), ?_⟩)
          rw [evaluate_of_error (hrun ▸ hvalue), hrun]

structure ReportsEvaluation (run : Traced EvalError Float) : Prop where
  unresolved_iff : (∃ slice, .unresolved slice ∈ run.events) ↔
    ∃ text, run.result = .error (.unmatchedSymbols text)
  of_unmatched : ∀ text, run.result = .error (.unmatchedSymbols text) →
    ∃ steps slice, run.events = steps ++ [.unresolved slice] ∧ spell slice = text ∧
      ∀ other, .unresolved other ∉ steps
  evaluated_iff : (∃ value, .evaluated value ∈ run.events) ↔ ∃ value, run.result = .ok value
  of_ok : ∀ value, run.result = .ok value →
    ∃ steps, run.events = steps ++ [.evaluated value] ∧ ∀ other, .evaluated other ∉ steps

theorem Catalog.reportsEvaluation (catalog : Catalog) (symbols : List Symbol) :
    ReportsEvaluation (catalog.evaluate symbols) := by
  obtain ⟨steps, hsteps, hcases⟩ := catalog.evaluate_cases symbols
  have hunresolved (slice : List Symbol) : .unresolved slice ∉ steps := fun member => by
    have := hsteps _ member
    contradiction
  have hevaluated (value : Float) : .evaluated value ∉ steps := fun member => by
    have := hsteps _ member
    contradiction
  rcases hcases with ⟨value, hrun⟩ | ⟨slice, hrun⟩ | ⟨error, hother, hrun⟩
  · rw [hrun]
    refine ⟨by simp [hunresolved], by simp, by simp, ?_⟩
    rintro _ ⟨rfl⟩
    exact ⟨steps, rfl, hevaluated⟩
  · rw [hrun]
    refine ⟨by simp, ?_, by simp [hevaluated], by simp⟩
    rintro _ ⟨rfl⟩
    exact ⟨steps, slice, rfl, rfl, hunresolved⟩
  · rw [hrun]
    refine ⟨by simp [hunresolved, hother], ?_, by simp [hevaluated], by simp⟩
    intro text hsame
    exact absurd (Except.error.inj hsame) (hother text)

/-- The events of every run agree with its result. Reading reports its symbols
one behind the other, and where it fails if it fails. Evaluation reports the slice
that no operator splits exactly if that is why it fails, and its value exactly if
it has one, once and as the last event. -/
theorem Catalog.events_agree_with_results (catalog : Catalog) :
    (∀ source, ReportsReading (catalog.tokenize source)) ∧
      ∀ symbols, ReportsEvaluation (catalog.evaluate symbols) :=
  ⟨catalog.reportsReading, catalog.reportsEvaluation⟩

end Calculator
