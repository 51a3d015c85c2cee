import DurationCalculator.Checked

/-!
# Double-precision numbers

A double is an exact rational number, an infinity or not a number. An operation
computes its exact result and rounds it once (`Binary64.nearest`), to the nearest
double and to the even one of two equally near. The two zeros are one value: no
operation here tells them apart.
-/

set_option autoImplicit false

namespace DurationCalculator

/-- A double-precision number. -/
inductive Binary64 where
  | finite (value : Rat)
  | infinite (negative : Bool)
  | nan
deriving DecidableEq

namespace Binary64

/-! ## Rounding -/

/-- The size of a rational number. -/
def magnitude (q : Rat) : Rat := if q < 0 then -q else q

/-- The nearest integer, the even one of two equally near. -/
def roundHalfEven (q : Rat) : Int :=
  let below := q.floor
  let excess := q - below
  if excess < 1 / 2 then below
  else if 1 / 2 < excess then below + 1
  else if below % 2 = 0 then below
  else below + 1

/-- For a positive `q`, the exponent `e` with `2 ^ e ≤ q < 2 ^ (e + 1)`. The bit
lengths of numerator and denominator give it up to one. -/
def binaryExponent (q : Rat) : Int :=
  let estimate : Int := (q.num.natAbs.log2 : Int) - (q.den.log2 : Int)
  if (2 : Rat) ^ estimate ≤ q then estimate else estimate - 1

/-- The exponent of the last place of a 53-bit significand for a number of size
`q`, which never falls below that of the subnormal numbers. -/
def lastPlace (q : Rat) : Int := max (-1074) (binaryExponent q - 52)

/-- The double nearest to `q`; infinite from `2 ^ 1024` on. -/
def nearest (q : Rat) : Binary64 :=
  let unit := (2 : Rat) ^ lastPlace (magnitude q)
  let rounded := roundHalfEven (q / unit) * unit
  if magnitude rounded < (2 : Rat) ^ (1024 : Int) then finite rounded else infinite (q < 0)

/-! ## Operations -/

/-- The integral part, toward zero. -/
def trunc : Binary64 → Binary64
  | finite q => finite (q.num.tdiv q.den : Int)
  | x => x

/-- The rounded difference. -/
def sub : Binary64 → Binary64 → Binary64
  | finite p, finite q => nearest (p - q)
  | infinite s, finite _ => infinite s
  | finite _, infinite t => infinite (!t)
  | infinite s, infinite t => if s = t then nan else infinite s
  | _, _ => nan

/-- The rounded product with a natural number. -/
def scale : Binary64 → Nat → Binary64
  | finite q, k => nearest (q * k)
  | infinite s, k => if k = 0 then nan else infinite s
  | nan, _ => nan

/-- What stands behind the point, with the sign of the number. -/
def fract (x : Binary64) : Binary64 := x.sub x.trunc

/-- Neither infinite nor not a number. -/
def isFinite : Binary64 → Bool
  | finite _ => true
  | _ => false

/-- How one number compares with another. What is not a number compares with nothing. -/
def compare? : Binary64 → Binary64 → Option Ordering
  | finite p, finite q => some (compareOfLessAndEq p q)
  | finite _, infinite t => some (if t then .gt else .lt)
  | infinite s, finite _ => some (if s then .lt else .gt)
  | infinite s, infinite t => some (if s = t then .eq else if s then .lt else .gt)
  | _, _ => none

/-- Whether one number is less than another. -/
def lt (x y : Binary64) : Bool := (compare? x y).any Ordering.isLT

/-- Whether one number is greater than another or equal to it. -/
def ge (x y : Binary64) : Bool := (compare? x y).any Ordering.isGE

/-! ## Integers -/

/-- The double nearest to a 64-bit integer. -/
def ofInt64 (n : Int64) : Binary64 := nearest n.toInt

/-- The integral part, or the end of the 64-bit range that it lies beyond; zero for what is not a
number. -/
def clampInt64 : Binary64 → Int64
  | finite q => Int64.ofIntClamp (q.num.tdiv q.den)
  | infinite negative => if negative then Int64.minValue else Int64.maxValue
  | nan => 0

/-- The integer that the number is, or the error when it is none or lies outside the 64-bit range.
The largest 64-bit integer is rounded up to the first number above the range, which the
comparison therefore refuses as well. -/
def toInt64 {ε : Type} (x : Binary64) (error : ε) : Except ε Int64 :=
  if !x.isFinite then .error error
  else if x.lt (ofInt64 Int64.minValue) || x.ge (ofInt64 Int64.maxValue) then .error error
  else if x.fract ≠ finite 0 then .error error
  else .ok x.clampInt64

/-- The integer that the number is, when it is one and lies in the 64-bit range. -/
def toInt64? (x : Binary64) : Option Int64 := (x.toInt64 ()).toOption

/-! ## Interchange format -/

/-- The sign bit of a 64-bit pattern. -/
def signBit (bits : UInt64) : Bool := 0x8000000000000000 ≤ bits.toNat

/-- The eleven bits of biased exponent. -/
def exponentField (bits : UInt64) : Nat := bits.toNat / 0x10000000000000 % 0x800

/-- The 52 bits of fraction. -/
def fractionField (bits : UInt64) : Nat := bits.toNat % 0x10000000000000

/-- The size of the number of a finite pattern. An exponent field of zeros encodes
zero and the subnormal numbers, which have no leading one. -/
def sizeOfBits (bits : UInt64) : Rat :=
  if exponentField bits = 0 then (fractionField bits : Rat) * (2 : Rat) ^ (-1074 : Int)
  else
    ((0x10000000000000 + fractionField bits : Nat) : Rat) *
      (2 : Rat) ^ ((exponentField bits : Int) - 1075)

/-- The number of a 64-bit pattern. An exponent field of ones encodes the infinities
and not a number. -/
def ofBits (bits : UInt64) : Binary64 :=
  if exponentField bits = 0x7ff then
    if fractionField bits = 0 then infinite (signBit bits) else nan
  else finite (if signBit bits then -sizeOfBits bits else sizeOfBits bits)

end Binary64

end DurationCalculator
