import DurationCalculator.Duration.Text

/-!
# Values

What literals, groups and operations yield: a duration, or a plain integer that
serves as a factor or divisor. Neither kind ever converts into the other.
-/

set_option autoImplicit false

namespace DurationCalculator

/-- A value. -/
inductive Value where
  | duration (d : Duration)
  | integer (n : Int64)
deriving DecidableEq

/-- The kind of a value. -/
inductive ValueKind where
  | duration
  | integer
deriving DecidableEq

/-- The word for the kind. -/
def ValueKind.text : ValueKind → String
  | duration => "duration"
  | integer => "integer"

namespace Value

instance : Inhabited Value := ⟨duration Duration.zero⟩

/-- The kind of the value. -/
def kind : Value → ValueKind
  | duration _ => .duration
  | integer _ => .integer

/-- The count that the value carries: nanoseconds, or the number itself. -/
def raw : Value → Int64
  | duration d => d.nanoseconds
  | integer n => n

/-- The characters of the value: canonical for a duration, decimal for an integer. -/
def chars : Value → List Char
  | duration d => d.chars
  | integer n => Decimal.ofInt n.toInt

/-- The text of the value. -/
def text (v : Value) : String := String.ofList v.chars

end Value

end DurationCalculator
