import DurationCalculator.Error

/-!
# Arithmetic on values

Which kinds each operator accepts, and what it yields:

| operator | duration, duration | duration, integer | integer, duration | integer, integer |
|----------|--------------------|-------------------|-------------------|------------------|
| `+`, `-` | duration           |                   |                   |                  |
| `*`      |                    | duration          | duration          | integer          |
| `/`      |                    | duration          |                   | integer          |

Division is toward zero. An operation on other kinds is a type error whatever the
operands are; then a zero divisor is an error, and last a result outside the range.
-/

set_option autoImplicit false

namespace DurationCalculator

/-- The result of a checked operation; it is missing when the operation overflows. -/
def Value.orOverflow : Option Value → Except EvaluationError Value
  | some v => .ok v
  | none => .error .overflow

namespace Operator

/-- Applies a binary operator to two values. -/
def apply (op : Operator) (left right : Value) : Except EvaluationError Value :=
  match op, left, right with
  | .add, .duration a, .duration b => Value.orOverflow ((a.add? b).map .duration)
  | .sub, .duration a, .duration b => Value.orOverflow ((a.sub? b).map .duration)
  | .mul, .duration d, .integer n => Value.orOverflow ((d.mul? n).map .duration)
  | .mul, .integer n, .duration d => Value.orOverflow ((d.mul? n).map .duration)
  | .mul, .integer a, .integer b => Value.orOverflow ((Checked.mul? a b).map .integer)
  | .div, .duration d, .integer n =>
      if n = 0 then .error .divisionByZero
      else Value.orOverflow ((d.div? n).map .duration)
  | .div, .integer a, .integer b =>
      if b = 0 then .error .divisionByZero
      else Value.orOverflow ((Checked.div? a b).map .integer)
  | op, left, right => .error (.unsupportedOperandTypes op left.kind right.kind)

end Operator

namespace Value

/-- The value of opposite sign. -/
def negate : Value → Except EvaluationError Value
  | duration d => orOverflow (d.neg?.map .duration)
  | integer n => orOverflow ((Checked.neg? n).map .integer)

/-- The value as a duration, which an integer is not. -/
def asDuration : Value → Except EvaluationError Duration
  | duration d => .ok d
  | integer n => .error (.resultNotDuration n)

end Value

end DurationCalculator
