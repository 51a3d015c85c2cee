import DurationCalculator.Decimal
import DurationCalculator.Binary64.Basic

/-!
# Numerals in scientific notation

The texts that name a double: an optional sign, then digits with at most one point
and at least one digit, then optionally `e` or `E` with a signed exponent; or, in
any mixture of cases, `inf`, `infinity` or `nan`. The number is rounded once, from
its exact value.
-/

set_option autoImplicit false

namespace DurationCalculator

/-- A numeral, as read. -/
inductive Numeral where
  /-- `± significand · 10 ^ exponent` -/
  | decimal (negative : Bool) (significand : Nat) (exponent : Int)
  | infinity (negative : Bool)
  | notANumber
deriving DecidableEq

namespace Numeral

/-- The size of an exponent. Once it has reached 65536, further digits do not
count: such a power of ten is out of reach either way. -/
def exponentValue (ds : List Char) : Nat :=
  ds.foldl (fun e d => if e < 65536 then 10 * e + Decimal.value [d] else e) 0

/-- The exponent that a text behind the significand states; without a text it is
zero. -/
def exponent? : List Char → Option Int
  | [] => some 0
  | mark :: rest =>
      if mark = 'e' ∨ mark = 'E' then
        let (negative, ds) := Decimal.splitSign rest
        if Decimal.isNumeral ds then some (Decimal.signed negative (exponentValue ds))
        else none
      else none

/-- The digits behind a leading point, and the text behind them. -/
def splitFraction : List Char → List Char × List Char
  | '.' :: rest => (rest.takeWhile Char.isDigit, rest.dropWhile Char.isDigit)
  | text => ([], text)

/-- Reads the digits, point and exponent of a decimal numeral. -/
def readDecimal? (negative : Bool) (text : List Char) : Option Numeral :=
  let whole := text.takeWhile Char.isDigit
  let (fraction, rest) := splitFraction (text.dropWhile Char.isDigit)
  if whole.isEmpty && fraction.isEmpty then none
  else (exponent? rest).map fun e =>
    decimal negative (Decimal.value (whole ++ fraction)) (e - (fraction.length : Int))

/-- Reads the name of a special number. -/
def readName? (negative : Bool) (text : List Char) : Option Numeral :=
  let name := text.map Char.toLower
  if name = ['i', 'n', 'f'] ∨ name = ['i', 'n', 'f', 'i', 'n', 'i', 't', 'y'] then
    some (infinity negative)
  else if name = ['n', 'a', 'n'] then some notANumber
  else none

/-- Reads a numeral; `none` when the text is not one. -/
def parse? (text : List Char) : Option Numeral :=
  let (negative, unsigned) := Decimal.splitSign text
  (readDecimal? negative unsigned).or (readName? negative unsigned)

/-- The exact value of a decimal numeral. -/
def exactValue (negative : Bool) (significand : Nat) (exponent : Int) : Rat :=
  (Decimal.signed negative significand : Int) * (10 : Rat) ^ exponent

/-- The double that a numeral names. -/
def toBinary64 : Numeral → Binary64
  | decimal negative significand exponent =>
      Binary64.nearest (exactValue negative significand exponent)
  | infinity negative => Binary64.infinite negative
  | notANumber => Binary64.nan

end Numeral

end DurationCalculator
