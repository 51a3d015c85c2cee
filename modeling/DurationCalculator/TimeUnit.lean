import DurationCalculator.Duration.Basic

/-!
# Units of time

The six units of duration literals, from hours down to nanoseconds, with their
suffixes, lengths and ratios. Suffixes are case-sensitive.
-/

set_option autoImplicit false

namespace DurationCalculator

/-- A unit of time. -/
inductive TimeUnit where
  | hour
  | minute
  | second
  | millisecond
  | microsecond
  | nanosecond
deriving DecidableEq

namespace TimeUnit

/-- Every unit, largest first. -/
def all : List TimeUnit := [hour, minute, second, millisecond, microsecond, nanosecond]

/-- Position among the units, counted from the largest. -/
def rank : TimeUnit → Nat
  | hour => 0
  | minute => 1
  | second => 2
  | millisecond => 3
  | microsecond => 4
  | nanosecond => 5

/-- The suffix that names the unit in a literal. -/
def suffix : TimeUnit → List Char
  | hour => ['h']
  | minute => ['m']
  | second => ['s']
  | millisecond => ['m', 's']
  | microsecond => ['u', 's']
  | nanosecond => ['n', 's']

/-- The unit that a suffix names. -/
def ofSuffix? (text : List Char) : Option TimeUnit := all.find? fun unit => unit.suffix = text

/-- The length of one of the unit. -/
def length : TimeUnit → Duration
  | hour => ⟨3600000000000⟩
  | minute => ⟨60000000000⟩
  | second => ⟨1000000000⟩
  | millisecond => ⟨1000000⟩
  | microsecond => ⟨1000⟩
  | nanosecond => ⟨1⟩

/-- The next smaller unit and how many of it make up one; `none` for nanoseconds. -/
def smaller? : TimeUnit → Option (TimeUnit × Nat)
  | hour => some (minute, 60)
  | minute => some (second, 60)
  | second => some (millisecond, 1000)
  | millisecond => some (microsecond, 1000)
  | microsecond => some (nanosecond, 1000)
  | nanosecond => none

/-- The units below a unit, largest first. -/
def smallerUnits (unit : TimeUnit) : List TimeUnit :=
  all.filter fun other => unit.rank < other.rank

/-- The suffix of a unit names it. -/
theorem ofSuffix?_suffix (unit : TimeUnit) : ofSuffix? unit.suffix = some unit := by
  cases unit <;> decide

/-- A unit is as long as the stated number of the next smaller one. -/
theorem length_eq_of_smaller? {unit next : TimeUnit} {ratio : Nat}
    (h : unit.smaller? = some (next, ratio)) :
    unit.length.count = ratio * next.length.count := by
  cases unit <;> cases h <;> decide

end TimeUnit

end DurationCalculator
