import DurationCalculator.Evaluation.Machine
import DurationCalculator.TextField

/-!
# Calculations

Expressions as text: `evaluate` gives the value of one, `calculate` requires a
duration, and `session` evaluates several with one printer. A printer writes the
operations of an evaluation as lines of text. It only observes: what it writes, and
whether anyone takes it, changes no result.
-/

set_option autoImplicit false

namespace DurationCalculator

/-! ## Traces as text -/

/-- The text of an operation, `left operator right = result`. -/
def Operation.text (o : Operation) : String :=
  String.ofList (o.left.chars ++ [' ', o.operator.symbol, ' '] ++ o.right.chars ++
    [' ', '=', ' '] ++ o.result.chars)

/-- How a line writes its values. -/
inductive LineFormat where
  /-- Canonical texts, at the right of 12 columns. -/
  | readable
  /-- Raw counts, at the right of 18 columns. -/
  | raw
deriving DecidableEq

namespace LineFormat

/-- A value in its columns. -/
def column (v : Value) : LineFormat → List Char
  | readable => ({ alignment := some .right, width := 12 } : TextField).write v
  | raw => ({ alignment := some .right, width := 18 } : TextField).integer v.raw.toInt

/-- The line of an operation. -/
def line (format : LineFormat) (o : Operation) : List Char :=
  format.column o.left ++ [' ', o.operator.symbol, ' '] ++ format.column o.right ++
    [' ', '=', ' '] ++ format.column o.result ++ ['\n']

/-- The lines of a trace. -/
def lines (format : LineFormat) (trace : List Operation) : String :=
  String.ofList (trace.flatMap format.line)

/-- The format that a name stands for. -/
def ofName? (name : String) : Option LineFormat :=
  if name = "h" then some readable else if name = "n" then some raw else none

end LineFormat

/-- Who is told of the operations of an evaluation. -/
inductive Printer where
  /-- Nobody. -/
  | discard
  /-- A sink that takes every line. -/
  | print (format : LineFormat)
  /-- A sink that takes nothing. What is written to it is lost. -/
  | lost (format : LineFormat)
deriving DecidableEq

/-- What has been written once a printer has been told of a trace. -/
def Printer.output (printer : Printer) (trace : List Operation) : String :=
  match printer with
  | discard => ""
  | print format => format.lines trace
  | lost _ => ""

/-! ## Evaluations -/

/-- The value of an expression, with the operations performed. An expression that
cannot be scanned performs none. -/
def evaluate (source : String) : Outcome :=
  match scan source with
  | .error e => ⟨.error (.scan e), []⟩
  | .ok tokens => evaluateTokens tokens

/-- The duration of a result, which an integer does not have. -/
def requireDuration (result : Except Error Value) : Except Error Duration :=
  match result with
  | .error e => .error e
  | .ok value => value.asDuration.mapError .evaluation

/-- What a calculation yields, and what its printer has written. -/
structure Calculation where
  result : Except Error Duration
  output : String

/-- Evaluates an expression that must have a duration. -/
def calculate (printer : Printer) (source : String) : Calculation :=
  let outcome := evaluate source
  ⟨requireDuration outcome.result, printer.output outcome.trace⟩

/-- The values of several expressions, and what one printer has written for all of
them. An error does not keep the next expression from being evaluated. -/
def session (printer : Printer) (sources : List String) :
    List (Except Error Value) × String :=
  let outcomes := sources.map evaluate
  (outcomes.map (·.result), printer.output (outcomes.flatMap (·.trace)))

end DurationCalculator
