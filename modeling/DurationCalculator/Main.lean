import DurationCalculator.CommandLine

/-!
# The program

Prints the response to the command line.
-/

set_option autoImplicit false

namespace DurationCalculator.CommandLine

/-- What the program says about its usage. -/
def texts : Texts where
  help :=
    "Duration calculation.\n\n" ++
    "Example: dur 40h + 2h prints 42h0m0s.\n\n" ++
    "Usage: dur [OPTIONS] [EXPRESSION]...\n\n" ++
    "Arguments:\n" ++
    "  [EXPRESSION]...  OPERAND [OPERATION OPERAND ...]; all arguments are joined\n\n" ++
    "Options:\n" ++
    "  -p, --printer <PRINTER>  Prints a line for each calculation that is performed\n" ++
    "                           (h: readable durations, n: raw nanoseconds)\n" ++
    "  -h, --help               Prints help\n" ++
    "  -V, --version            Prints the version\n"
  usageError :=
    "error: bad option\n\n" ++
    "Usage: dur [OPTIONS] [EXPRESSION]...\n\n" ++
    "For more information, try '--help'.\n"

end DurationCalculator.CommandLine

/-- Runs the program. -/
def main (args : List String) : IO UInt32 := do
  let response := DurationCalculator.CommandLine.respond DurationCalculator.CommandLine.texts args
  IO.print response.stdout
  IO.eprint response.stderr
  return response.status.toUInt32
