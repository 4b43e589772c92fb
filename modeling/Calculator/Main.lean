import Calculator.Command.Report

/-!
The command line tool. It reads the arguments, the environment and the named
file, and shows the report on them.
-/

namespace Calculator.Command

def logVariable : String := "RUST_LOG"

def usage : String :=
  "Usage: tiercalc [-f|--file] [-t|--tokens] [-v|--verbose]... [-V|--version] [--] <CONTENTS>\n"

def readErrorOf : IO.Error → ReadError
  | .noFileOrDirectory .. => .notFound
  | .inappropriateType _ 21 _ => .isDirectory
  | .inappropriateType .. => .notDirectory
  | error => .other (toString error)

def readTextFile (path : String) : IO (Except ReadError String) := do
  try
    return decodeText (← IO.FS.readBinFile path)
  catch error => return .error (readErrorOf error)

/-- Shows log lines and messages on the error stream and the rest on the output
stream. -/
def Report.print (report : Report) : IO UInt32 := do
  for line in report.logs do
    IO.eprintln line
  IO.print report.output
  IO.eprint report.errors
  return report.exit.toUInt32

def run (arguments : List String) : IO UInt32 := do
  match Request.ofArguments arguments with
  | .error .version => Report.version.print
  | .error .usage => do
      IO.eprint usage
      return 2
  | .ok request =>
      let content ←
        if request.fromFile then readTextFile request.argument else pure (.ok "")
      let setting ← IO.getEnv logVariable
      (Report.ofRequest request setting fun _ => content).print

end Calculator.Command

def main (arguments : List String) : IO UInt32 := Calculator.Command.run arguments
