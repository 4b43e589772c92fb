import Calculator.Cut

/-!
Diagnostic events and computations that emit them. Reading and evaluating a
text are pure functions that return their events beside their result; what is
done with the events is decided elsewhere.
-/

namespace Calculator

inductive Level where
  | error
  | warn
  | info
  | debug
  | trace
  deriving DecidableEq, Repr

def Level.rank : Level → Nat
  | .error => 1
  | .warn => 2
  | .info => 3
  | .debug => 4
  | .trace => 5

inductive Stage where
  | lexing
  | evaluation
  deriving DecidableEq, Repr

/-- What can be observed while a text is read and evaluated. -/
inductive Event where
  /-- Reading begins, of so many bytes. -/
  | tokenizing (bytes : Nat)
  /-- A symbol was read at a byte position. -/
  | lexed (position : Nat) (symbol : Symbol)
  /-- Nothing can be read at a byte position. -/
  | noTokenMatches (position : Nat)
  /-- Symbols of two classes can be read at a byte position. -/
  | severalTokensMatch (position : Nat)
  /-- Reading succeeded with so many symbols, sentinels included. -/
  | tokenized (symbols : Nat)
  /-- Evaluation begins, of so many symbols. -/
  | evaluating (symbols : Nat)
  /-- The slice is one bracket pair around its inside. -/
  | unwrapping (slice : List Symbol)
  /-- The operands of a cut have values, and its operator is about to be
  applied. -/
  | split (cut : Cut)
  /-- No operator splits the slice. -/
  | unresolved (slice : List Symbol)
  /-- Evaluation succeeded with a value. -/
  | evaluated (value : Float)
  deriving DecidableEq

/-- The value of a field of an event. A `word` comes from a fixed vocabulary, a
`text` from the expression. -/
inductive Detail where
  | count (n : Nat)
  | word (name : String)
  | text (text : String)
  | number (value : Float)
  deriving DecidableEq

namespace Event

def stage : Event → Stage
  | .tokenizing .. | .lexed .. | .noTokenMatches .. | .severalTokensMatch ..
  | .tokenized .. => .lexing
  | .evaluating .. | .unwrapping .. | .split .. | .unresolved .. | .evaluated .. => .evaluation

/-- Single steps are traced; where a stage starts and how it ends is debugging
information. -/
def level : Event → Level
  | .lexed .. | .unwrapping .. | .split .. => .trace
  | _ => .debug

def message : Event → String
  | .tokenizing .. => "tokenizing"
  | .lexed .. => "lexed symbol"
  | .noTokenMatches .. => "no token matches"
  | .severalTokensMatch .. => "several token kinds match"
  | .tokenized .. => "tokenized"
  | .evaluating .. => "evaluating"
  | .unwrapping .. => "unwrapping group"
  | .split .. => "split"
  | .unresolved .. => "no operator resolves slice"
  | .evaluated .. => "evaluated"

def fields : Event → List (String × Detail)
  | .tokenizing bytes => [("bytes", .count bytes)]
  | .lexed position symbol =>
      [("position", .count position), ("kind", .word symbol.className),
        ("symbol", .text symbol.text)]
  | .noTokenMatches position | .severalTokensMatch position => [("position", .count position)]
  | .tokenized symbols | .evaluating symbols => [("symbols", .count symbols)]
  | .unwrapping slice | .unresolved slice => [("slice", .text (spell slice))]
  | .split cut =>
      [("tier", .count cut.operator.precedence), ("operator", .word cut.operator.name),
        ("left", .text (spell cut.left)), ("right", .text (spell cut.right))]
  | .evaluated value => [("value", .number value)]

end Event

/-- What succeeds in two steps succeeds in the first one. -/
theorem exists_of_bind_eq_ok {ε α β : Type} {first : Except ε α} {next : α → Except ε β}
    {value : β} (h : first >>= next = .ok value) :
    ∃ middle, first = .ok middle ∧ next middle = .ok value := by
  cases first with
  | error error => cases h
  | ok middle => exact ⟨middle, rfl, h⟩

/-- A result together with the events that led to it, oldest first. The events
of a failed computation are kept. -/
structure Traced (ε α : Type) where
  events : List Event
  result : Except ε α

namespace Traced

variable {ε δ α β : Type}

protected def pure (value : α) : Traced ε α := ⟨[], .ok value⟩

/-- Runs `next` on the value and appends its events. After a failure nothing is
run and no event is added. -/
protected def bind (first : Traced ε α) (next : α → Traced ε β) : Traced ε β :=
  match first.result with
  | .error error => ⟨first.events, .error error⟩
  | .ok value => ⟨first.events ++ (next value).events, (next value).result⟩

instance : Monad (Traced ε) where
  pure := Traced.pure
  bind := Traced.bind

def emit (event : Event) : Traced ε Unit := ⟨[event], .ok ()⟩

def fail (error : ε) : Traced ε α := ⟨[], .error error⟩

def ofExcept (result : Except ε α) : Traced ε α := ⟨[], result⟩

def mapError (f : ε → δ) (t : Traced ε α) : Traced δ α := ⟨t.events, t.result.mapError f⟩

@[simp] theorem events_pure (value : α) : (pure value : Traced ε α).events = [] := rfl

@[simp] theorem result_pure (value : α) : (pure value : Traced ε α).result = .ok value := rfl

theorem emit_bind (event : Event) (next : Unit → Traced ε β) :
    emit event >>= next = ⟨event :: (next ()).events, (next ()).result⟩ := rfl

theorem bind_of_error {first : Traced ε α} {error : ε} (h : first.result = .error error)
    (next : α → Traced ε β) : first >>= next = ⟨first.events, .error error⟩ := by
  simp [bind, Traced.bind, h]

theorem bind_of_ok {first : Traced ε α} {value : α} (h : first.result = .ok value)
    (next : α → Traced ε β) :
    first >>= next = ⟨first.events ++ (next value).events, (next value).result⟩ := by
  simp [bind, Traced.bind, h]

@[simp] theorem result_bind (first : Traced ε α) (next : α → Traced ε β) :
    (first >>= next).result = first.result >>= fun value => (next value).result := by
  cases h : first.result with
  | error error =>
      rw [bind_of_error h]
      rfl
  | ok value =>
      rw [bind_of_ok h]
      rfl

@[simp] theorem result_emit (event : Event) : (emit event : Traced ε Unit).result = .ok () := rfl

@[simp] theorem result_mapError (f : ε → δ) (t : Traced ε α) :
    (t.mapError f).result = t.result.mapError f := rfl

end Traced

end Calculator
