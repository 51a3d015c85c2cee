import DurationCalculator.Token.Scan
import DurationCalculator.Value.Basic

/-!
# Errors

Why an expression has no value, and the message that says so. Either it has no
tokens, or its tokens have no value. The tokens may also run out before the end of
the input is read; a scanned expression never does that.
-/

set_option autoImplicit false

namespace DurationCalculator

/-! ## Tokens without a value -/

/-- What stops an evaluation. -/
inductive EvaluationError where
  /-- A `)` stands where an operand is required. -/
  | unexpectedClosingParenthesis
  /-- Another token stands where an operand is required. -/
  | unexpectedToken (found : Token)
  /-- The input ends where an operand is required. -/
  | unexpectedEndOfInput
  /-- The operator is not defined for operands of these kinds. -/
  | unsupportedOperandTypes (operator : Operator) (left right : ValueKind)
  /-- The divisor is zero. -/
  | divisionByZero
  /-- A result lies outside the 64-bit range. -/
  | overflow
  /-- The value is an integer where a duration is required. -/
  | resultNotDuration (n : Int64)
  /-- A literal has no value. -/
  | literal (e : LiteralError)
deriving DecidableEq

/-- Why an operator rejects operands of the kinds for which it is not defined. -/
def Operator.restriction (op : Operator) (left : ValueKind) : String :=
  match op, left with
  | .add, _ => "only durations can be added or subtracted"
  | .sub, _ => "only durations can be added or subtracted"
  | .mul, _ => "cannot multiply two durations"
  | .div, .duration => "cannot divide two durations"
  | .div, .integer => "cannot divide by a duration"

/-- The message for the user. -/
def EvaluationError.message : EvaluationError → String
  | unexpectedClosingParenthesis => "Unexpected closing parenthesis."
  | unexpectedToken found =>
      "Unexpected token " ++ found.description ++ ", expected an operand."
  | unexpectedEndOfInput => "Unexpected end of input."
  | unsupportedOperandTypes op left right =>
      "Type error: " ++ left.text ++ " " ++ op.symbol.toString ++ " " ++ right.text ++ ": " ++
        op.restriction left ++ "."
  | divisionByZero => "Division by zero."
  | overflow => "Overflow while trying to compute result."
  | resultNotDuration n =>
      "Result is no duration: the expression evaluated to " ++
        String.ofList (Decimal.ofInt n.toInt) ++ "."
  | literal e => e.message

/-! ## Expressions without a value -/

/-- What an expression fails with. -/
inductive Error where
  | scan (e : ScanError)
  | evaluation (e : EvaluationError)
  /-- The token at `position` is wanted, and there are `length` tokens. -/
  | cursorOutOfRange (position length : Nat)
deriving DecidableEq

/-- The message for the user. -/
def Error.message : Error → String
  | scan e => e.message
  | evaluation e => e.message
  | cursorOutOfRange position length =>
      "Internal error: token cursor " ++ String.ofList (Decimal.digits position) ++
        " out of range for " ++ String.ofList (Decimal.digits length) ++ " tokens."

end DurationCalculator
