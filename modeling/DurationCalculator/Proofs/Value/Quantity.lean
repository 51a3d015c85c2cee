import DurationCalculator.Value.Arithmetic

/-!
# Values over unbounded integers

A quantity is a kind with any integer. An operation on quantities takes the exact result and
refuses it when it lies outside the 64-bit range; which kinds it accepts is a table, and a zero
divisor is refused before the range is looked at. The arithmetic on values is this arithmetic
(`Operator.map_quantity_apply`, `Value.map_quantity_negate`).
-/

set_option autoImplicit false

namespace DurationCalculator

/-- An integer with a kind. -/
structure Quantity where
  kind : ValueKind
  amount : Int
deriving DecidableEq

/-- The quantity of a value. -/
def Value.quantity (v : Value) : Quantity := ⟨v.kind, v.raw.toInt⟩

/-- A value is determined by its quantity. -/
theorem Value.quantity_inj {v w : Value} : v.quantity = w.quantity ↔ v = w := by
  rcases v with ⟨⟨m⟩⟩ | m <;> rcases w with ⟨⟨n⟩⟩ | n <;>
    simp [Value.quantity, Value.kind, Value.raw, Int64.toInt_inj]

namespace Quantity

/-- The kind of the result, when the operator accepts operands of these kinds. -/
def resultKind? : Operator → ValueKind → ValueKind → Option ValueKind
  | .add, .duration, .duration => some .duration
  | .sub, .duration, .duration => some .duration
  | .mul, .duration, .integer => some .duration
  | .mul, .integer, .duration => some .duration
  | .mul, .integer, .integer => some .integer
  | .div, .duration, .integer => some .duration
  | .div, .integer, .integer => some .integer
  | _, _, _ => none

/-- The operators on integers, with the quotient toward zero. -/
def onIntegers : Operator → Int → Int → Int
  | .add, m, n => m + n
  | .sub, m, n => m - n
  | .mul, m, n => m * n
  | .div, m, n => m.tdiv n

/-- A quantity in the 64-bit range. -/
def checked (q : Quantity) : Except EvaluationError Quantity :=
  if Checked.InRange q.amount then .ok q else .error .overflow

/-- The quantity of opposite sign. -/
def negate (q : Quantity) : Except EvaluationError Quantity := checked ⟨q.kind, -q.amount⟩

/-- Applies a binary operator to two quantities. -/
def apply (op : Operator) (left right : Quantity) : Except EvaluationError Quantity :=
  match resultKind? op left.kind right.kind with
  | none => .error (.unsupportedOperandTypes op left.kind right.kind)
  | some kind =>
      if op = .div ∧ right.amount = 0 then .error .divisionByZero
      else checked ⟨kind, onIntegers op left.amount right.amount⟩

end Quantity

/-! ## The arithmetic on values is exact -/

theorem Quantity.checked_of_inRange {q : Quantity} (h : Checked.InRange q.amount) :
    q.checked = .ok q := if_pos h

theorem Quantity.checked_of_not_inRange {q : Quantity} (h : ¬ Checked.InRange q.amount) :
    q.checked = .error .overflow := if_neg h

/-- A checked integer is the exact one, in the range. -/
theorem Value.map_quantity_integer (n : Int) :
    (orOverflow ((Checked.ofInt? n).map integer)).map quantity =
      Quantity.checked ⟨.integer, n⟩ := by
  cases h : Checked.ofInt? n with
  | none =>
      rw [Quantity.checked_of_not_inRange (Checked.ofInt?_eq_none_iff.1 h)]
      rfl
  | some w =>
      have hw : w.toInt = n := Checked.ofInt?_eq_some_iff.1 h
      rw [Quantity.checked_of_inRange (hw ▸ Checked.inRange_toInt w), ← hw]
      rfl

/-- A checked duration is the exact one, in the range. -/
theorem Value.map_quantity_duration (n : Int) :
    (orOverflow ((Duration.ofCount? n).map duration)).map quantity =
      Quantity.checked ⟨.duration, n⟩ := by
  cases h : Duration.ofCount? n with
  | none =>
      rw [Quantity.checked_of_not_inRange (Duration.ofCount?_eq_none_iff.1 h)]
      rfl
  | some d =>
      have hd : d.count = n := Duration.ofCount?_eq_some_iff.1 h
      rw [Quantity.checked_of_inRange (hd ▸ Checked.inRange_toInt d.nanoseconds), ← hd]
      rfl

/-- The negation of a value is the exact one. -/
theorem Value.map_quantity_negate (v : Value) :
    v.negate.map quantity = v.quantity.negate := by
  cases v with
  | duration d => exact map_quantity_duration (-d.count)
  | integer n => exact map_quantity_integer (-n.toInt)

/-- Division by a value is exact, and refused for zero. -/
theorem Operator.map_quantity_div_duration (d : Duration) (n : Int64) :
    (div.apply (.duration d) (.integer n)).map Value.quantity =
      Quantity.apply div (Value.duration d).quantity (Value.integer n).quantity := by
  by_cases hn : n = 0
  · subst hn
    rfl
  · have hamount : n.toInt ≠ 0 := fun h => hn (Int64.toInt_inj.1 h)
    have hexact := Value.map_quantity_duration (d.count.tdiv n.toInt)
    simpa [Operator.apply, Duration.div?, Duration.count, hn, Quantity.apply, Value.quantity,
      Value.kind, Value.raw, Quantity.resultKind?, Quantity.onIntegers, hamount] using hexact

/-- Division of integers is exact, and refused for zero. -/
theorem Operator.map_quantity_div_integer (m n : Int64) :
    (div.apply (.integer m) (.integer n)).map Value.quantity =
      Quantity.apply div (Value.integer m).quantity (Value.integer n).quantity := by
  by_cases hn : n = 0
  · subst hn
    rfl
  · have hamount : n.toInt ≠ 0 := fun h => hn (Int64.toInt_inj.1 h)
    have hexact := Value.map_quantity_integer (m.toInt.tdiv n.toInt)
    simpa [Operator.apply, Checked.div?, hn, Quantity.apply, Value.quantity, Value.kind,
      Value.raw, Quantity.resultKind?, Quantity.onIntegers, hamount] using hexact

/-- A binary operator on values is the exact one. -/
theorem Operator.map_quantity_apply (op : Operator) (left right : Value) :
    (op.apply left right).map Value.quantity =
      Quantity.apply op left.quantity right.quantity := by
  cases op with
  | add =>
      -- two durations are added, other kinds are refused on both sides
      cases left <;> cases right <;> first | rfl | exact Value.map_quantity_duration _
  | sub =>
      cases left <;> cases right <;> first | rfl | exact Value.map_quantity_duration _
  | mul =>
      rcases left with d | m <;> rcases right with e | n
      · rfl
      · exact Value.map_quantity_duration (d.count * n.toInt)
      · -- the scaled duration is computed with its factor on the right
        have hamount : e.count * m.toInt = m.toInt * e.count := Int.mul_comm _ _
        have hexact := Value.map_quantity_duration (e.count * m.toInt)
        exact hexact.trans (by rw [hamount]; rfl)
      · exact Value.map_quantity_integer (m.toInt * n.toInt)
  | div =>
      rcases left with d | m <;> rcases right with e | n
      · rfl
      · exact map_quantity_div_duration d n
      · rfl
      · exact map_quantity_div_integer m n

end DurationCalculator
