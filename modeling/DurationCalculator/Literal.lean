import DurationCalculator.Checked
import DurationCalculator.Decimal
import DurationCalculator.Numeral
import DurationCalculator.TimeUnit

/-!
# Literals

An integer is at most one sign and ASCII digits, in the 64-bit range.

A duration is a number and one unit. Without a decimal separator the number is a
count of digits and the duration is exact. With one (`.` or `,`) the number is a
double that is handed down through the units: each takes the integral part, and what
is left goes on to the next smaller unit, down to nanoseconds, where it is dropped.

A text that has no value is refused with a fault and with the text itself.
-/

set_option autoImplicit false

namespace DurationCalculator

/-! ## Errors -/

/-- What is wrong with the text of a literal. -/
inductive LiteralFault where
  /-- The text is no integer, or one outside the 64-bit range. -/
  | invalidInteger
  /-- The text in front of the unit is no number. -/
  | invalidNumber
  /-- The text does not end in a unit. -/
  | unknownUnit
  /-- The duration lies outside the 64-bit range. -/
  | outOfRange
  /-- The smallest unit carries a fraction. -/
  | fractionalNanoseconds
deriving DecidableEq

/-- A fault together with the text of the literal that has it. -/
structure LiteralError where
  fault : LiteralFault
  literal : String
deriving DecidableEq

/-- The message for the user. -/
def LiteralError.message (e : LiteralError) : String :=
  match e.fault with
  | .invalidInteger => "Invalid integer '" ++ e.literal ++ "'."
  | .invalidNumber => "Invalid duration '" ++ e.literal ++ "'."
  | .unknownUnit => "Unknown unit in duration '" ++ e.literal ++ "'."
  | .outOfRange => "Duration '" ++ e.literal ++ "' is out of range."
  | .fractionalNanoseconds =>
      "Floating point values for unit ns are not supported: '" ++ e.literal ++ "'."

/-! ## Integers -/

namespace IntegerLiteral

/-- The integer that a text denotes. -/
def read? (text : List Char) : Option Int64 :=
  let (negative, ds) := Decimal.splitSign text
  if Decimal.isNumeral ds then Checked.ofInt? (Decimal.signed negative (Decimal.value ds))
  else none

/-- Parses an integer literal such as `4`. -/
def parse (literal : String) : Except LiteralError Int64 :=
  match read? literal.toList with
  | some n => .ok n
  | none => .error ⟨.invalidInteger, literal⟩

end IntegerLiteral

/-! ## Durations -/

namespace DurationLiteral

/-- The decimal separators. -/
def isSeparator (c : Char) : Bool := c = '.' || c = ','

/-! ### Whole counts -/

/-- The duration of as many units as the digits say. -/
def wholeUnits? (digits : List Char) (unit : TimeUnit) : Option Duration := do
  let count ← Checked.ofInt? (Decimal.value digits)
  unit.length.mul? count

/-- Reads digits with a unit behind them. -/
def readWhole (text : List Char) : Except LiteralFault Duration :=
  let digits := text.takeWhile Char.isDigit
  match TimeUnit.ofSuffix? (text.dropWhile Char.isDigit) with
  | none => .error .unknownUnit
  | some unit =>
      if digits.isEmpty then .error .invalidNumber
      else
        match wholeUnits? digits unit with
        | none => .error .outOfRange
        | some d => .ok d

/-! ### Fractions -/

/-- Hands `value` units of the first unit down through the units, adding up in
`total` what each of them takes. -/
def cascadeAlong (value : Binary64) (total : Duration) : List TimeUnit → Option Duration
  | [] => some total
  | unit :: below => do
      let whole := value.trunc
      let count ← whole.toInt64?
      let part ← unit.length.mul? count
      let total ← total.add? part
      match unit.smaller? with
      | none => some total
      | some (_, ratio) => cascadeAlong ((value.sub whole).scale ratio) total below

/-- The duration of `value` units, down to nanoseconds; `none` when a part or a sum
leaves the 64-bit range. -/
def cascade? (value : Binary64) (unit : TimeUnit) : Option Duration :=
  cascadeAlong value Duration.zero (unit :: unit.smallerUnits)

/-- Cuts a text in front of its unit. The unit is the last byte when the byte before
it is a digit, and the last two bytes otherwise; a text of one byte is all unit.
There is no cut when it would fall inside a character. -/
def splitUnit? (text : List Char) : Option (List Char × List Char) :=
  match text.reverse with
  | [] => some ([], [])
  | [last] => if last.utf8Size ≤ 2 then some ([], [last]) else none
  | last :: before :: rest =>
      if last.utf8Size = 1 then
        if before.isDigit then some ((before :: rest).reverse, [last])
        else if before.utf8Size = 1 then some (rest.reverse, [before, last])
        else none
      else if last.utf8Size = 2 then some ((before :: rest).reverse, [last])
      else none

/-- Reads a numeral with a unit behind it. -/
def readFractional (text : List Char) : Except LiteralFault Duration :=
  match splitUnit? (text.map fun c => if c = ',' then '.' else c) with
  | none => .error .unknownUnit
  | some (number, suffix) =>
      match Numeral.parse? number with
      | none => .error .invalidNumber
      | some numeral =>
          match TimeUnit.ofSuffix? suffix with
          | none => .error .unknownUnit
          | some .nanosecond => .error .fractionalNanoseconds
          | some unit =>
              match cascade? numeral.toBinary64 unit with
              | none => .error .outOfRange
              | some d => .ok d

/-! ### Texts -/

/-- Reads the text of a duration literal. -/
def read (text : List Char) : Except LiteralFault Duration :=
  if text.any isSeparator then readFractional text else readWhole text

/-- Parses a duration literal such as `90m`, `1,5h` or `2.25ms`. -/
def parse (literal : String) : Except LiteralError Duration :=
  (read literal.toList).mapError fun fault => ⟨fault, literal⟩

end DurationLiteral

end DurationCalculator
