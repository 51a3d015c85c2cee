import DurationCalculator.Decimal
import DurationCalculator.Duration.Basic

/-!
# Canonical text of a duration

Zero is `0s`. Below one second the largest of `ns`, `µs` and `ms` with a nonzero
integer part is used. From one second on, seconds are always written, minutes
from one minute on and hours from one hour on. A fraction has no trailing zeros,
and a negative duration has a minus sign in front.
-/

set_option autoImplicit false

namespace DurationCalculator.Duration

/-- The list without the zeros at its end. -/
def trimZeros (ds : List Char) : List Char := (ds.reverse.dropWhile (· == '0')).reverse

/-- The decimal fraction `n / 10 ^ places` behind a point, without trailing zeros;
nothing for zero. -/
def fractionText (places n : Nat) : List Char :=
  if n = 0 then [] else '.' :: trimZeros (Decimal.padded places n)

/-- Hours, minutes and seconds of `n` nanoseconds, from the largest unit that is
reached. -/
def clockText (n : Nat) : List Char :=
  let total := n / 1000000000
  let seconds :=
    Decimal.digits (total % 60) ++ fractionText 9 (n % 1000000000) ++ ['s']
  let minutes := Decimal.digits (total / 60 % 60) ++ ['m'] ++ seconds
  if 3600 ≤ total then Decimal.digits (total / 3600) ++ ['h'] ++ minutes
  else if 60 ≤ total then minutes
  else seconds

/-- The text of `n` nanoseconds. -/
def magnitudeText (n : Nat) : List Char :=
  if n = 0 then ['0', 's']
  else if n < 1000 then Decimal.digits n ++ ['n', 's']
  else if n < 1000000 then
    Decimal.digits (n / 1000) ++ fractionText 3 (n % 1000) ++ ['µ', 's']
  else if n < 1000000000 then
    Decimal.digits (n / 1000000) ++ fractionText 6 (n % 1000000) ++ ['m', 's']
  else clockText n

/-- The characters of the canonical text. -/
def chars (d : Duration) : List Char :=
  if d.count < 0 then '-' :: magnitudeText d.count.natAbs else magnitudeText d.count.natAbs

/-- The canonical text. -/
def text (d : Duration) : String := String.ofList d.chars

end DurationCalculator.Duration
