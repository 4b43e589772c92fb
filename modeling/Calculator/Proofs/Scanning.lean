import Calculator.Lexing

/-!
A run over a text, its events included. It reads the symbols of a part at the
head of the text, one after another, and stops at the end of the text or where
not exactly one symbol can be read. All that a run does follows from the symbols
it has read and from the place where it stops.
-/

namespace Calculator

/-- The symbols at the head of a text that follows `previous`. The last one of
them and the text after it are kept, because they decide what is read next. -/
inductive Catalog.Lexes (catalog : Catalog) :
    Symbol → List Char → List Symbol → Symbol → List Char → Prop where
  | nil (previous : Symbol) (rest : List Char) : Lexes catalog previous rest [] previous rest
  | cons {previous last : Symbol} {text rest : List Char} {lexeme : Lexeme}
      {symbols : List Symbol} (hlexeme : catalog.lexemes previous text = [lexeme])
      (hrest : Lexes catalog lexeme.symbol lexeme.rest symbols last rest) :
      Lexes catalog previous text (lexeme.symbol :: symbols) last rest

def byteLength (symbols : List Symbol) : Nat :=
  symbols.foldr (fun symbol length => symbol.length + length) 0

@[simp] theorem byteLength_nil : byteLength [] = 0 := rfl

@[simp] theorem byteLength_cons (symbol : Symbol) (symbols : List Symbol) :
    byteLength (symbol :: symbols) = symbol.length + byteLength symbols := rfl

def lexedEvents : Nat → List Symbol → List Event
  | _, [] => []
  | position, symbol :: rest =>
      .lexed position symbol :: lexedEvents (position + symbol.length) rest

theorem length_lexedEvents (position : Nat) (symbols : List Symbol) :
    (lexedEvents position symbols).length = symbols.length := by
  induction symbols generalizing position with
  | nil => rfl
  | cons symbol rest ih => rw [lexedEvents, List.length_cons, List.length_cons, ih]

/-- A symbol is read behind the bytes of the symbols before it. -/
theorem exists_of_mem_lexedEvents {position : Nat} {symbols : List Symbol} {event : Event}
    (h : event ∈ lexedEvents position symbols) :
    ∃ before symbol after, symbols = before ++ symbol :: after ∧
      event = .lexed (position + byteLength before) symbol := by
  induction symbols generalizing position with
  | nil => contradiction
  | cons symbol rest ih =>
      rcases List.mem_cons.mp h with rfl | later
      · exact ⟨[], symbol, rest, rfl, rfl⟩
      · obtain ⟨before, found, after, rfl, rfl⟩ := ih later
        exact ⟨symbol :: before, found, after, rfl, by rw [byteLength_cons, Nat.add_assoc]⟩

def Event.lexedSymbol? : Event → Option Symbol
  | .lexed _ symbol => some symbol
  | _ => none

theorem filterMap_lexedEvents (position : Nat) (symbols : List Symbol) :
    (lexedEvents position symbols).filterMap Event.lexedSymbol? = symbols := by
  induction symbols generalizing position with
  | nil => rfl
  | cons symbol rest ih =>
      have hread : (Event.lexed position symbol).lexedSymbol? = some symbol := rfl
      rw [lexedEvents, List.filterMap_cons_some hread, ih]

def LexError.position : LexError → Nat
  | .unexpected position _ | .ambiguous position _ => position

def LexError.rest : LexError → String
  | .unexpected _ rest | .ambiguous _ rest => rest

def Event.position? : Event → Option Nat
  | .lexed position _ | .noTokenMatches position | .severalTokensMatch position => some position
  | _ => none

/-- The event and the error of a run that stops at a position before some text,
given the lexemes at its head. -/
inductive DeadEnd (position : Nat) (text : List Char) : List Lexeme → Event → LexError → Prop where
  | none : DeadEnd position text [] (.noTokenMatches position)
      (.unexpected position (String.ofList text))
  | several {first second : Lexeme} {others : List Lexeme} :
      DeadEnd position text (first :: second :: others) (.severalTokensMatch position)
        (.ambiguous position (String.ofList text))

theorem DeadEnd.position?_eq {position : Nat} {text : List Char} {candidates : List Lexeme}
    {event : Event} {error : LexError} (h : DeadEnd position text candidates event error) :
    event.position? = some position := by
  cases h <;> rfl

theorem DeadEnd.lexedSymbol?_eq {position : Nat} {text : List Char} {candidates : List Lexeme}
    {event : Event} {error : LexError} (h : DeadEnd position text candidates event error) :
    event.lexedSymbol? = .none := by
  cases h <;> rfl

/-- The error tells where a run stops, and keeps the text from there on. -/
theorem DeadEnd.error_eq {position : Nat} {text : List Char} {candidates : List Lexeme}
    {event : Event} {error : LexError} (h : DeadEnd position text candidates event error) :
    error.position = position ∧ error.rest = String.ofList text := by
  cases h <;> exact ⟨rfl, rfl⟩

def Traced.behind {ε : Type} (events : List Event) (symbols : List Symbol)
    (run : Traced ε (List Symbol)) : Traced ε (List Symbol) :=
  ⟨events ++ run.events, run.result.map fun others => symbols ++ others⟩

theorem Traced.behind_nil {ε : Type} (run : Traced ε (List Symbol)) : run.behind [] [] = run := by
  obtain ⟨events, result⟩ := run
  cases result <;> rfl

theorem Traced.behind_behind {ε : Type} (events others : List Event) (symbols later : List Symbol)
    (run : Traced ε (List Symbol)) :
    (run.behind others later).behind events symbols =
      run.behind (events ++ others) (symbols ++ later) := by
  obtain ⟨following, result⟩ := run
  cases result with
  | error error => simp [behind, Except.map]
  | ok found => simp [behind, Except.map]

namespace Catalog

variable {catalog : Catalog} {previous last : Symbol} {text rest : List Char} {lexeme : Lexeme}
  {symbols : List Symbol}

theorem Lexes.single (h : catalog.lexemes previous text = [lexeme]) :
    catalog.Lexes previous text [lexeme.symbol] lexeme.symbol lexeme.rest :=
  .cons h (.nil _ _)

theorem Lexes.append {middle : Symbol} {between : List Char} {others : List Symbol}
    (h : catalog.Lexes previous text symbols middle between)
    (hothers : catalog.Lexes middle between others last rest) :
    catalog.Lexes previous text (symbols ++ others) last rest := by
  induction h with
  | nil => exact hothers
  | cons hlexeme _ ih => exact .cons hlexeme (ih hothers)

theorem ne_nil_of_lexemes (h : catalog.lexemes previous text = [lexeme]) : text ≠ [] := by
  have hshorter : lexeme.rest.length < text.length :=
    length_lt_of_mem_lexemes (h ▸ List.mem_singleton_self lexeme)
  intro hnil
  simp [hnil] at hshorter

theorem lexFrom_nil (position : Nat) : catalog.lexFrom previous position [] = ⟨[], .ok []⟩ := by
  rw [lexFrom, if_pos rfl]
  rfl

theorem lexFrom_of_lexemes (h : catalog.lexemes previous text = [lexeme]) (position : Nat) :
    catalog.lexFrom previous position text =
      (catalog.lexFrom lexeme.symbol (position + lexeme.symbol.length) lexeme.rest).behind
        [.lexed position lexeme.symbol] [lexeme.symbol] := by
  rw [lexFrom, if_neg (ne_nil_of_lexemes h)]
  split
  · rename_i found hfound
    rw [h, List.singleton_inj] at hfound
    subst hfound
    generalize catalog.lexFrom lexeme.symbol _ _ = tail
    obtain ⟨events, result⟩ := tail
    cases result with
    | error error => rfl
    | ok others =>
        have hresult : (⟨events, .ok others⟩ : Traced LexError (List Symbol)).result =
          .ok others := rfl
        rw [Traced.emit_bind, Traced.bind_of_ok hresult, Traced.events_pure, List.append_nil]
        rfl
  · rename_i hnone
    rw [h] at hnone
    contradiction
  · rename_i hseveral
    simp [h] at hseveral

/-- Where not exactly one symbol can be read, a run stops. -/
theorem exists_deadEnd (hne : text ≠ []) (h : ∀ lexeme, catalog.lexemes previous text ≠ [lexeme])
    (position : Nat) :
    ∃ event error, DeadEnd position text (catalog.lexemes previous text) event error ∧
      catalog.lexFrom previous position text = ⟨[event], .error error⟩ := by
  rw [lexFrom, if_neg hne]
  split
  · rename_i lexeme hone
    exact absurd hone (h lexeme)
  · rename_i hnone
    exact ⟨_, _, hnone ▸ .none, rfl⟩
  · rename_i hseveral
    exact ⟨_, _, hseveral ▸ .several, rfl⟩

/-- A run goes on behind the symbols it has read. -/
theorem lexFrom_of_lexes (h : catalog.Lexes previous text symbols last rest) (position : Nat) :
    catalog.lexFrom previous position text =
      (catalog.lexFrom last (position + byteLength symbols) rest).behind
        (lexedEvents position symbols) symbols := by
  induction h generalizing position with
  | nil previous rest => exact (Traced.behind_nil _).symm
  | cons hlexeme _ ih =>
      rw [lexFrom_of_lexemes hlexeme, ih, Traced.behind_behind, byteLength_cons, Nat.add_assoc]
      rfl

/-- Symbols can be read until there is not exactly one that comes next. -/
theorem exists_lexes (catalog : Catalog) (previous : Symbol) (text : List Char) :
    ∃ symbols last rest, catalog.Lexes previous text symbols last rest ∧
      ∀ lexeme, catalog.lexemes last rest ≠ [lexeme] := by
  induction hsize : text.length using Nat.strongRecOn generalizing previous text with
  | _ size ih =>
    subst hsize
    by_cases hone : ∃ lexeme, catalog.lexemes previous text = [lexeme]
    · obtain ⟨lexeme, hlexeme⟩ := hone
      have hshorter : lexeme.rest.length < text.length :=
        length_lt_of_mem_lexemes (hlexeme ▸ List.mem_singleton_self lexeme)
      obtain ⟨symbols, last, rest, hlexes, hstop⟩ := ih _ hshorter lexeme.symbol _ rfl
      exact ⟨lexeme.symbol :: symbols, last, rest, .cons hlexeme hlexes, hstop⟩
    · exact ⟨[], previous, text, .nil previous text, fun lexeme h => hone ⟨lexeme, h⟩⟩

/-- A run reads all the symbols it can and ends there: with the text, or with
the event and the error of not knowing what comes next. -/
theorem lexFrom_cases (catalog : Catalog) (previous : Symbol) (position : Nat)
    (text : List Char) :
    ∃ symbols last rest, catalog.Lexes previous text symbols last rest ∧
      ((rest = [] ∧
          catalog.lexFrom previous position text = ⟨lexedEvents position symbols, .ok symbols⟩) ∨
        (rest ≠ [] ∧ ∃ event error,
          DeadEnd (position + byteLength symbols) rest (catalog.lexemes last rest) event error ∧
          catalog.lexFrom previous position text =
            ⟨lexedEvents position symbols ++ [event], .error error⟩)) := by
  obtain ⟨symbols, last, rest, hlexes, hstop⟩ := catalog.exists_lexes previous text
  refine ⟨symbols, last, rest, hlexes, ?_⟩
  rw [lexFrom_of_lexes hlexes]
  by_cases hempty : rest = []
  · left
    refine ⟨hempty, ?_⟩
    rw [hempty, lexFrom_nil]
    simp [Traced.behind, Except.map]
  · right
    obtain ⟨event, error, hend, hrun⟩ :=
      exists_deadEnd hempty hstop (position + byteLength symbols)
    rw [hrun]
    exact ⟨hempty, event, error, hend, rfl⟩

/-- A text is read from end to end exactly as the symbols of the relation. -/
theorem result_lexFrom_eq_ok_iff {position : Nat} :
    (catalog.lexFrom previous position text).result = .ok symbols ↔
      ∃ last, catalog.Lexes previous text symbols last [] := by
  constructor
  · intro h
    obtain ⟨read, last, rest, hlexes, ⟨rfl, hrun⟩ | ⟨-, event, error, -, hrun⟩⟩ :=
      catalog.lexFrom_cases previous position text
    · rw [hrun] at h
      cases h
      exact ⟨last, hlexes⟩
    · rw [hrun] at h
      contradiction
  · rintro ⟨last, hlexes⟩
    rw [lexFrom_of_lexes hlexes, lexFrom_nil]
    simp [Traced.behind, Except.map]

theorem result_tokenize (catalog : Catalog) (source : String) :
    (catalog.tokenize source).result =
      (catalog.lexFrom .start 0 source.toList).result.map fun symbols =>
        .start :: symbols ++ [.finish] := by
  unfold tokenize
  simp only [Traced.result_bind, Traced.result_emit]
  cases (catalog.lexFrom .start 0 source.toList).result with
  | error error => rfl
  | ok symbols => rfl

/-- A text is tokenized as the symbols of the relation between two sentinels. -/
theorem result_tokenize_eq_ok_iff {source : String} {all : List Symbol} :
    (catalog.tokenize source).result = .ok all ↔
      ∃ symbols last, catalog.Lexes .start source.toList symbols last [] ∧
        all = .start :: symbols ++ [.finish] := by
  rw [result_tokenize]
  constructor
  · intro h
    cases hlexed : (catalog.lexFrom .start 0 source.toList).result with
    | error error =>
        rw [hlexed] at h
        contradiction
    | ok symbols =>
        rw [hlexed] at h
        cases h
        obtain ⟨last, hlexes⟩ := result_lexFrom_eq_ok_iff.mp hlexed
        exact ⟨symbols, last, hlexes, rfl⟩
  · rintro ⟨symbols, last, hlexes, rfl⟩
    rw [result_lexFrom_eq_ok_iff.mpr ⟨last, hlexes⟩]
    rfl

/-- The events of tokenizing are those of the run between two that mark its
start and its success. -/
theorem events_tokenize (catalog : Catalog) (source : String) :
    (catalog.tokenize source).events =
      .tokenizing source.utf8ByteSize :: ((catalog.lexFrom .start 0 source.toList).events ++
        match (catalog.lexFrom .start 0 source.toList).result with
        | .ok symbols => [.tokenized (symbols.length + 2)]
        | .error _ => []) := by
  unfold tokenize
  rw [Traced.emit_bind]
  cases hresult : (catalog.lexFrom .start 0 source.toList).result with
  | error error =>
      rw [Traced.bind_of_error hresult]
      simp
  | ok symbols =>
      rw [Traced.bind_of_ok hresult]
      simp [Traced.emit_bind]

/-- Tokenizing fails where a run comes to a dead end, behind the symbols it has
read. -/
theorem tokenize_eq_error {source : String} {error : LexError}
    (h : (catalog.tokenize source).result = .error error) :
    ∃ symbols last rest event, catalog.Lexes .start source.toList symbols last rest ∧ rest ≠ [] ∧
      DeadEnd (byteLength symbols) rest (catalog.lexemes last rest) event error ∧
      (catalog.tokenize source).events =
        .tokenizing source.utf8ByteSize :: (lexedEvents 0 symbols ++ [event]) := by
  obtain ⟨symbols, last, rest, hlexes, ⟨-, hrun⟩ | ⟨hrest, event, stop, hstop, hrun⟩⟩ :=
    catalog.lexFrom_cases .start 0 source.toList
  · rw [result_tokenize, hrun] at h
    contradiction
  · rw [result_tokenize, hrun] at h
    cases h
    rw [Nat.zero_add] at hstop
    refine ⟨symbols, last, rest, event, hlexes, hrest, hstop, ?_⟩
    rw [events_tokenize, hrun, List.append_nil]

/-- A dead end behind some symbols of a text is where tokenizing it fails. -/
theorem result_tokenize_of_lexes {source : String}
    (h : catalog.Lexes .start source.toList symbols last rest) (hrest : rest ≠ [])
    (hstop : ∀ lexeme, catalog.lexemes last rest ≠ [lexeme]) :
    ∃ event error, DeadEnd (byteLength symbols) rest (catalog.lexemes last rest) event error ∧
      (catalog.tokenize source).result = .error error := by
  obtain ⟨event, error, hend, hrun⟩ := exists_deadEnd hrest hstop (byteLength symbols)
  refine ⟨event, error, hend, ?_⟩
  rw [result_tokenize, lexFrom_of_lexes h, Nat.zero_add, hrun]
  rfl

end Catalog

end Calculator
