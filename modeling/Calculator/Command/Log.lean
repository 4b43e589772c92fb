import Calculator.Diagnostic

/-!
Log lines: which events are logged, and how an event is written as a line.
-/

namespace Calculator

def Level.name : Level → String
  | .error => "ERROR"
  | .warn => "WARN"
  | .info => "INFO"
  | .debug => "DEBUG"
  | .trace => "TRACE"

def Stage.target : Stage → String
  | .lexing => "tiercalc::interpreter::lexer"
  | .evaluation => "tiercalc::interpreter::evaluator::core"

/-- The value of a field in a log line. Words are quoted, texts are not. -/
def Detail.logText : Detail → String
  | .count n => toString n
  | .word name => "\"" ++ name ++ "\""
  | .text content => content
  | .number value => Layout.log.write value

def Event.logLine (event : Event) : String :=
  let fields := event.fields.map fun (name, detail) => " " ++ name ++ "=" ++ detail.logText
  event.level.name ++ " " ++ event.stage.target ++ ": " ++ event.message ++ String.join fields

end Calculator

namespace Calculator.Command

/-- Admits the events of all targets that start with `target`, up to a level.
Without a level nothing is admitted. -/
structure LogFilter where
  target : String
  level : Option Level
  deriving DecidableEq, Repr

namespace LogFilter

def admits (filter : LogFilter) (event : Event) : Bool :=
  filter.target.toList.isPrefixOf event.stage.target.toList &&
    filter.level.any fun level => event.level.rank ≤ level.rank

def ofVerbosity : Nat → LogFilter
  | 0 => ⟨"", some .warn⟩
  | 1 => ⟨"", some .info⟩
  | 2 => ⟨"", some .debug⟩
  | _ => ⟨"", some .trace⟩

/-- A level by its name, in letters of either case, or by its number. The outer
`none` is no level at all, the inner one is `off`. -/
def level? (text : String) : Option (Option Level) :=
  match String.ofList (text.toList.map Char.toLower) with
  | "off" | "0" => some none
  | "error" | "1" => some (some .error)
  | "warn" | "2" => some (some .warn)
  | "info" | "3" => some (some .info)
  | "debug" | "4" => some (some .debug)
  | "trace" | "5" => some (some .trace)
  | _ => none

/-- A target is a non-empty word over letters, digits, `_`, `:` and `-`. -/
def target? (text : String) : Option String :=
  let admitted := text.toList.all fun c => c.isAlphanum || ['_', ':', '-'].contains c
  if text ≠ "" && admitted then some text else none

/-- A filter as it is set in the environment: a level for all targets, a target
of which everything is shown, or a target and its level. An empty setting
leaves only errors. -/
def ofSetting? (setting : String) : Option LogFilter :=
  match setting.splitOn "=" with
  | [""] => some ⟨"", some .error⟩
  | [word] =>
      match level? word with
      | some level => some ⟨"", level⟩
      | none => (target? word).map fun target => ⟨target, some .trace⟩
  | [target, ""] => (target? target).map fun target => ⟨target, some .trace⟩
  | [target, level] => do return ⟨← target? target, ← level? level⟩
  | _ => none

/-- The filter of a run: a valid setting takes precedence over the verbosity. -/
def choose (setting : Option String) (verbosity : Nat) : LogFilter :=
  (setting.bind ofSetting?).getD (ofVerbosity verbosity)

end LogFilter

end Calculator.Command
