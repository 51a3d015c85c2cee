/-!
# Checked 64-bit arithmetic

An operation computes its exact integer result and keeps it when it lies in the
signed 64-bit range. Every range check of the library is `ofInt?`;
`ofInt?_eq_some_iff` and `ofInt?_eq_none_iff` say what it keeps and what it refuses.
-/

set_option autoImplicit false

namespace DurationCalculator.Checked

/-- The range of signed 64-bit integers. -/
def InRange (n : Int) : Prop := Int64.minValue.toInt ≤ n ∧ n ≤ Int64.maxValue.toInt

instance (n : Int) : Decidable (InRange n) :=
  inferInstanceAs (Decidable (_ ∧ _))

/-- The 64-bit integer of value `n`, when `n` lies in the range. -/
def ofInt? (n : Int) : Option Int64 :=
  if h : InRange n then some (Int64.ofIntLE n h.1 h.2) else none

/-- The product, when it lies in the range. -/
def mul? (a b : Int64) : Option Int64 := ofInt? (a.toInt * b.toInt)

/-- The quotient toward zero, when the divisor is not zero and the quotient lies
in the range. -/
def div? (a b : Int64) : Option Int64 :=
  if b = 0 then none else ofInt? (a.toInt.tdiv b.toInt)

/-- The negation, when it lies in the range. -/
def neg? (a : Int64) : Option Int64 := ofInt? (-a.toInt)

/-- Every 64-bit integer lies in the range. -/
theorem inRange_toInt (w : Int64) : InRange w.toInt :=
  ⟨w.minValue_le_toInt, w.toInt_le⟩

/-- Every integer in the range is that of a 64-bit integer. -/
theorem exists_toInt_eq {n : Int} (h : InRange n) : ∃ w : Int64, w.toInt = n :=
  ⟨Int64.ofIntLE n h.1 h.2, @Int64.toInt_ofIntLE n h.1 h.2⟩

/-- The range reaches further down than up. -/
theorem inRange_neg {n : Int} (h : InRange n) (hn : 0 ≤ n) : InRange (-n) := by
  have hlimits : Int64.minValue.toInt ≤ -Int64.maxValue.toInt := by decide
  have hmax : 0 ≤ Int64.maxValue.toInt := by decide
  have hle : n ≤ Int64.maxValue.toInt := h.2
  exact ⟨by omega, by omega⟩

/-- What is kept is the integer of the same value. -/
theorem ofInt?_eq_some_iff {n : Int} {w : Int64} : ofInt? n = some w ↔ w.toInt = n := by
  unfold ofInt?
  split
  next h =>
    constructor
    · intro hw
      cases hw
      exact Int64.toInt_ofIntLE
    · rintro rfl
      rw [Int64.ofIntLE_toInt]
  next h =>
    constructor
    · intro hw
      cases hw
    · rintro rfl
      exact absurd (inRange_toInt w) h

/-- Refused is exactly what lies outside the range. -/
theorem ofInt?_eq_none_iff {n : Int} : ofInt? n = none ↔ ¬ InRange n := by
  unfold ofInt?
  by_cases h : InRange n
  · simp [h]
  · simp [h]

end DurationCalculator.Checked
