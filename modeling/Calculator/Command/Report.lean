import Calculator.Calculation
import Calculator.Command.Arguments
import Calculator.Command.Folder
import Calculator.Command.Log

/-!
A run of the command line tool, as a function from what it is given to what it
shows.
-/

namespace Calculator.Command

/-- What a run leaves behind: its exit code, its two output streams and the log
lines, which share a stream with the error messages. -/
structure Report where
  exit : Nat
  output : String
  errors : String
  logs : List String
  deriving DecidableEq, Repr

def padded (columns : Nat) (text : String) : String :=
  text ++ String.ofList (List.replicate (columns - text.length) ' ')

def symbolLine (symbol : Symbol) : String :=
  padded 10 symbol.className ++ " " ++ symbol.text ++ "\n"

/-- The symbols of a text, one a line. A text that cannot be read has no
listing. -/
def listing (source : String) : String :=
  match (symbolsOf source).result with
  | .ok symbols => String.join (symbols.map symbolLine)
  | .error _ => ""

namespace Report

def version : Report := ⟨0, "tiercalc 0.1.0\n", "", []⟩

def unreadable (path : String) (error : ReadError) : Report :=
  ⟨1, "", "Failed to read the input file '" ++ path ++ "': " ++ error.reason ++ "\n", []⟩

/-- Calculates an expression. The listing, if wanted, comes before the value. -/
def calculation (listSymbols : Bool) (filter : LogFilter) (source : String) : Report :=
  let traced := calculate source
  let listed := if listSymbols then listing source else ""
  let logs := (traced.events.filter filter.admits).map Event.logLine
  match traced.result with
  | .ok value => ⟨0, listed ++ Layout.value.write value ++ "\n", "", logs⟩
  | .error error => ⟨1, listed, error.message ++ "\n", logs⟩

/-- Answers a request. `content` is what reading the named file gave, and is
looked at only if the expression comes from a file. -/
def ofRequest (request : Request) (setting : Option String)
    (content : String → Except ReadError String) : Report :=
  let filter := LogFilter.choose setting request.verbosity
  if request.fromFile then
    match content request.argument with
    | .ok source => calculation request.listSymbols filter source
    | .error error => unreadable request.argument error
  else calculation request.listSymbols filter request.argument

end Report

end Calculator.Command
