/-!
The command line: four flags, in short and long form, and one positional
argument, which is the expression or the path of a file that holds it.
Arguments are looked at from left to right, and the first one that ends the
reading decides how it ends.
-/

namespace Calculator.Command

inductive Flag where
  | file
  | tokens
  | verbose
  | version
  deriving DecidableEq, Repr

def Flag.ofShort? : Char → Option Flag
  | 'f' => some .file
  | 't' => some .tokens
  | 'v' => some .verbose
  | 'V' => some .version
  | _ => none

def Flag.ofLong? : String → Option Flag
  | "file" => some .file
  | "tokens" => some .tokens
  | "verbose" => some .verbose
  | "version" => some .version
  | _ => none

inductive Stop where
  | version
  | usage
  deriving DecidableEq, Repr

structure Settings where
  fromFile : Bool
  listSymbols : Bool
  verbosity : Nat
  positional : Option String
  deriving DecidableEq, Repr

structure Request where
  fromFile : Bool
  listSymbols : Bool
  verbosity : Nat
  argument : String
  deriving DecidableEq, Repr

namespace Settings

def initial : Settings := ⟨false, false, 0, none⟩

/-- Sets a flag. Only the verbosity may be raised more than once. -/
def set (settings : Settings) : Flag → Except Stop Settings
  | .file => if settings.fromFile then .error .usage else .ok { settings with fromFile := true }
  | .tokens =>
      if settings.listSymbols then .error .usage else .ok { settings with listSymbols := true }
  | .verbose => .ok { settings with verbosity := settings.verbosity + 1 }
  | .version => .error .version

def setFound (settings : Settings) : Option Flag → Except Stop Settings
  | some flag => settings.set flag
  | none => .error .usage

def take (settings : Settings) (argument : String) : Except Stop Settings :=
  match settings.positional with
  | none => .ok { settings with positional := some argument }
  | some _ => .error .usage

/-- Reads one argument. One dash starts a cluster of short flags, two dashes a
long flag; a dash on its own is positional. -/
def readOne (settings : Settings) (argument : String) : Except Stop Settings :=
  match argument.toList with
  | '-' :: '-' :: name => settings.setFound (Flag.ofLong? (String.ofList name))
  | '-' :: first :: rest =>
      (first :: rest).foldlM (fun settings c => settings.setFound (Flag.ofShort? c)) settings
  | _ => settings.take argument

/-- Reads arguments in order. After a double dash all of them are
positional. -/
def read (settings : Settings) : List String → Except Stop Settings
  | [] => .ok settings
  | argument :: rest =>
      if argument = "--" then rest.foldlM take settings
      else do (← settings.readOne argument).read rest

end Settings

def Request.ofArguments (arguments : List String) : Except Stop Request := do
  let settings ← Settings.initial.read arguments
  match settings.positional with
  | none => .error .usage
  | some argument =>
      return ⟨settings.fromFile, settings.listSymbols, settings.verbosity, argument⟩

end Calculator.Command
