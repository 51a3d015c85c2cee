import DurationCalculator.Checked

/-!
# Durations

A duration is a signed count of nanoseconds in 64 bits, about 292 years in
either direction. An operation computes the exact count of its result; a count
outside the range is `none`. `ofCount?_eq_some_iff` turns every statement about an
operation into one about integers.
-/

set_option autoImplicit false

namespace DurationCalculator

/-- A signed span of time with nanosecond resolution. -/
structure Duration where
  nanoseconds : Int64
deriving DecidableEq

namespace Duration

/-- The empty duration. -/
def zero : Duration := ⟨0⟩

instance : Inhabited Duration := ⟨zero⟩

/-- The number of nanoseconds, as an integer. -/
def count (d : Duration) : Int := d.nanoseconds.toInt

/-- The duration of `n` nanoseconds, when `n` lies in the 64-bit range. -/
def ofCount? (n : Int) : Option Duration := (Checked.ofInt? n).map mk

/-- Durations compare by their nanosecond counts. -/
instance : Ord Duration where
  compare a b := compare a.count b.count

/-! ## Checked operations -/

/-- The sum of two durations. -/
def add? (a b : Duration) : Option Duration := ofCount? (a.count + b.count)

/-- The difference of two durations. -/
def sub? (a b : Duration) : Option Duration := ofCount? (a.count - b.count)

/-- The duration scaled by an integer factor. -/
def mul? (d : Duration) (factor : Int64) : Option Duration :=
  ofCount? (d.count * factor.toInt)

/-- The duration divided by an integer, toward zero; `none` for the divisor zero. -/
def div? (d : Duration) (divisor : Int64) : Option Duration :=
  if divisor = 0 then none else ofCount? (d.count.tdiv divisor.toInt)

/-- The duration of opposite sign. -/
def neg? (d : Duration) : Option Duration := ofCount? (-d.count)

/-! ## Counts -/

/-- Durations with one count are equal. -/
theorem count_inj {a b : Duration} : a.count = b.count ↔ a = b := by
  cases a
  cases b
  simp [count, Int64.toInt_inj]

/-- A result is the duration of the stated count. -/
theorem ofCount?_eq_some_iff {n : Int} {d : Duration} : ofCount? n = some d ↔ d.count = n := by
  unfold ofCount?
  constructor
  · intro h
    obtain ⟨w, hw, rfl⟩ := Option.map_eq_some_iff.1 h
    exact Checked.ofInt?_eq_some_iff.1 hw
  · intro h
    rw [Checked.ofInt?_eq_some_iff.2 h]
    rfl

/-- There is no result exactly when the count lies outside the range. -/
theorem ofCount?_eq_none_iff {n : Int} : ofCount? n = none ↔ ¬ Checked.InRange n := by
  rw [ofCount?, Option.map_eq_none_iff, Checked.ofInt?_eq_none_iff]

/-- Every count in the range is that of a duration. -/
theorem exists_count_eq {n : Int} (h : Checked.InRange n) : ∃ d : Duration, d.count = n := by
  obtain ⟨w, hw⟩ := Checked.exists_toInt_eq h
  exact ⟨⟨w⟩, hw⟩

/-- A duration that is not negative has an opposite. -/
theorem exists_opposite_of_nonneg {d : Duration} (h : 0 ≤ d.count) :
    ∃ opposite : Duration, opposite.count = -d.count :=
  exists_count_eq (Checked.inRange_neg (Checked.inRange_toInt d.nanoseconds) h)

/-- A count that is larger than one above the range lies above it as well. -/
theorem ofCount?_eq_none_of_le {m n : Int} (h : ofCount? m = none) (hm : 0 ≤ m) (hle : m ≤ n) :
    ofCount? n = none := by
  rw [ofCount?_eq_none_iff] at h ⊢
  have hmin : Int64.minValue.toInt ≤ 0 := by decide
  rintro ⟨-, hmax⟩
  exact h ⟨by omega, by omega⟩

end Duration

end DurationCalculator
