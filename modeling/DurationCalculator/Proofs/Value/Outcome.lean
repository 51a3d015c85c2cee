import DurationCalculator.Proofs.Value.Quantity
import DurationCalculator.Value.Steps

/-!
# Outcomes of operations on values

An operation is exact, and there are three ways for it to fail. They are tried in this order: the
operator is not defined for the kinds of the operands, whatever these are; the divisor is zero; the
exact result lies outside the 64-bit range (`Operator.apply_eq_error_iff`). Otherwise the exact
result is the value, a duration if an operand is one (`Operator.apply_eq_ok_iff`). The opposite of a
value is its product with minus one, and fails where the product does.

So a run of steps on a value is exact as well, except that it stays where a step fails
(`Value.quantity_last_runSteps`), and from a duration it leads to durations only
(`Value.runSteps_of_duration`).
-/

set_option autoImplicit false

namespace DurationCalculator

/-! ## Kinds -/

/-- The operator is defined for operands of these kinds. -/
def Operator.Accepts : Operator → ValueKind → ValueKind → Prop
  | add, left, right => left = .duration ∧ right = .duration
  | sub, left, right => left = .duration ∧ right = .duration
  | mul, left, right => ¬(left = .duration ∧ right = .duration)
  | div, _, right => right = .integer

/-- A result is a duration if an operand is one. -/
def ValueKind.join (left right : ValueKind) : ValueKind :=
  if left = .duration ∨ right = .duration then .duration else .integer

/-- The table of kinds in words. -/
theorem Quantity.resultKind?_eq_some_iff {op : Operator} {left right kind : ValueKind} :
    resultKind? op left right = some kind ↔ op.Accepts left right ∧ kind = left.join right := by
  cases op <;> cases left <;> cases right <;> cases kind <;>
    simp [resultKind?, Operator.Accepts, ValueKind.join]

theorem Quantity.resultKind?_eq_none_iff {op : Operator} {left right : ValueKind} :
    resultKind? op left right = none ↔ ¬ op.Accepts left right := by
  cases op <;> cases left <;> cases right <;> simp [resultKind?, Operator.Accepts]

/-! ## Quantities -/

namespace Quantity

/-- What is kept is a value, since every value lies in the range. -/
theorem checked_eq_ok_quantity_iff {q : Quantity} {v : Value} :
    q.checked = .ok v.quantity ↔ v.kind = q.kind ∧ v.raw.toInt = q.amount := by
  have hquantity : v.quantity = q ↔ v.kind = q.kind ∧ v.raw.toInt = q.amount :=
    Quantity.mk.injEq _ _ _ _ ▸ Iff.rfl
  rw [← hquantity]
  constructor
  · intro h
    unfold checked at h
    split at h <;> cases h
    rfl
  · rintro rfl
    exact checked_of_inRange (Checked.inRange_toInt v.raw)

theorem checked_eq_error_iff {q : Quantity} {e : EvaluationError} :
    q.checked = .error e ↔ ¬ Checked.InRange q.amount ∧ e = .overflow := by
  by_cases h : Checked.InRange q.amount
  · rw [checked_of_inRange h]
    simp [h]
  · rw [checked_of_not_inRange h]
    simp [h, eq_comm]

end Quantity

/-! ## Values -/

namespace Operator

/-- The operation is a division by zero. -/
def DividesByZero (op : Operator) (right : Value) : Prop := op = .div ∧ right.raw = 0

/-- The result over unbounded integers, with the quotient toward zero. -/
def exactResult (op : Operator) (left right : Value) : Int :=
  Quantity.onIntegers op left.raw.toInt right.raw.toInt

variable {op : Operator} {left right : Value}

theorem dividesByZero_iff : op.DividesByZero right ↔ op = .div ∧ right.quantity.amount = 0 := by
  have hzero : right.raw = 0 ↔ right.raw.toInt = 0 := Int64.toInt_inj.symm
  rw [DividesByZero, hzero]
  rfl

/-- Operands of other kinds are refused first. -/
theorem quantity_apply_of_not_accepts (h : ¬ op.Accepts left.kind right.kind) :
    Quantity.apply op left.quantity right.quantity =
      .error (.unsupportedOperandTypes op left.kind right.kind) := by
  have hkind : Quantity.resultKind? op left.quantity.kind right.quantity.kind = none :=
    Quantity.resultKind?_eq_none_iff.2 h
  rw [Quantity.apply, hkind]
  rfl

/-- Then a divisor that is zero. -/
theorem quantity_apply_of_accepts (h : op.Accepts left.kind right.kind) :
    Quantity.apply op left.quantity right.quantity =
      if op = .div ∧ right.quantity.amount = 0 then .error .divisionByZero
      else Quantity.checked ⟨left.kind.join right.kind, op.exactResult left right⟩ := by
  have hkind : Quantity.resultKind? op left.quantity.kind right.quantity.kind =
      some (left.kind.join right.kind) := Quantity.resultKind?_eq_some_iff.2 ⟨h, rfl⟩
  rw [Quantity.apply, hkind]
  rfl

/-- The value of an operation is that of its quantities. -/
theorem apply_eq_ok_iff_quantity {v : Value} : op.apply left right = .ok v ↔
    Quantity.apply op left.quantity right.quantity = .ok v.quantity := by
  rw [← map_quantity_apply]
  cases op.apply left right <;> simp [Except.map, Value.quantity_inj]

/-- An operation fails as it does for its quantities. -/
theorem apply_eq_error_iff_quantity {e : EvaluationError} : op.apply left right = .error e ↔
    Quantity.apply op left.quantity right.quantity = .error e := by
  rw [← map_quantity_apply]
  cases op.apply left right <;> simp [Except.map]

/-- An operation that is defined, and not a division by zero, has the exact result as its value. -/
theorem apply_eq_ok_iff {v : Value} : op.apply left right = .ok v ↔
    op.Accepts left.kind right.kind ∧ ¬ op.DividesByZero right ∧
      v.kind = left.kind.join right.kind ∧ v.raw.toInt = op.exactResult left right := by
  rw [apply_eq_ok_iff_quantity, dividesByZero_iff]
  by_cases haccepts : op.Accepts left.kind right.kind
  · rw [quantity_apply_of_accepts haccepts]
    split
    next hzero => simp [hzero]
    next hzero => simp [haccepts, hzero, Quantity.checked_eq_ok_quantity_iff]
  · rw [quantity_apply_of_not_accepts haccepts]
    simp [haccepts]

/-- The errors of an operation, in the order in which they are found. -/
theorem apply_eq_error_iff {e : EvaluationError} : op.apply left right = .error e ↔
    (¬ op.Accepts left.kind right.kind ∧
      e = .unsupportedOperandTypes op left.kind right.kind) ∨
    (op.Accepts left.kind right.kind ∧ op.DividesByZero right ∧ e = .divisionByZero) ∨
    (op.Accepts left.kind right.kind ∧ ¬ op.DividesByZero right ∧
      ¬ Checked.InRange (op.exactResult left right) ∧ e = .overflow) := by
  rw [apply_eq_error_iff_quantity, dividesByZero_iff]
  by_cases haccepts : op.Accepts left.kind right.kind
  · rw [quantity_apply_of_accepts haccepts]
    split
    next hzero =>
      obtain ⟨rfl, hamount⟩ := hzero
      simp [haccepts, hamount, eq_comm]
    next hzero => simp [haccepts, hzero, Quantity.checked_eq_error_iff]
  · rw [quantity_apply_of_not_accepts haccepts]
    simp [haccepts, eq_comm]

end Operator

/-! ## Opposites -/

namespace Value

/-- The opposite of a value is its product with minus one, also where this overflows. -/
theorem negate_eq_mul (v : Value) : v.negate = Operator.mul.apply v (.integer (-1)) := by
  have hone : (-1 : Int64).toInt = -1 := by decide
  cases v with
  | duration d =>
      rw [negate, Operator.apply, Duration.neg?, Duration.mul?, hone, Int.mul_neg_one]
  | integer n => rw [negate, Operator.apply, Checked.neg?, Checked.mul?, hone, Int.mul_neg_one]

/-- Only the least value of a kind has no opposite. -/
theorem negate_eq_overflow_iff (v : Value) :
    v.negate = .error .overflow ↔ v.raw = Int64.minValue := by
  have hexact : v.negate = .error .overflow ↔ v.quantity.negate = .error .overflow := by
    rw [← map_quantity_negate]
    cases v.negate <;> simp [Except.map]
  have hopposite : ¬ Checked.InRange (-v.raw.toInt) ↔ v.raw.toInt = Int64.minValue.toInt := by
    -- the range reaches one further down than up
    have hmin : Int64.minValue.toInt = -9223372036854775808 := by decide
    have hmax : Int64.maxValue.toInt = 9223372036854775807 := by decide
    obtain ⟨hlow, hhigh⟩ := Checked.inRange_toInt v.raw
    rw [Checked.InRange, hmin, hmax]
    omega
  rw [hexact, Quantity.negate, Quantity.checked_eq_error_iff, ← Int64.toInt_inj, ← hopposite]
  exact and_iff_left rfl

end Value

/-- An operation is exact, with one order of its errors. Operands of kinds for which the operator is
not defined are refused whatever they are; then a divisor that is zero; then an exact result outside
the 64-bit range. Where nothing is refused the exact result is the value, a duration if an operand
is one and an integer otherwise. A value is negated like it is multiplied by minus one, and only the
least value of a kind overflows. -/
theorem operations_exact (op : Operator) (left right : Value) :
    (∀ e, op.apply left right = .error e ↔
      (¬ op.Accepts left.kind right.kind ∧
        e = .unsupportedOperandTypes op left.kind right.kind) ∨
      (op.Accepts left.kind right.kind ∧ op.DividesByZero right ∧ e = .divisionByZero) ∨
      (op.Accepts left.kind right.kind ∧ ¬ op.DividesByZero right ∧
        ¬ Checked.InRange (op.exactResult left right) ∧ e = .overflow)) ∧
    (∀ v, op.apply left right = .ok v ↔
      op.Accepts left.kind right.kind ∧ ¬ op.DividesByZero right ∧
        v.kind = left.kind.join right.kind ∧ v.raw.toInt = op.exactResult left right) ∧
    ∀ v : Value, v.negate = Operator.mul.apply v (.integer (-1)) ∧
      (v.negate = .error .overflow ↔ v.raw = Int64.minValue) :=
  ⟨fun _ => Operator.apply_eq_error_iff, fun _ => Operator.apply_eq_ok_iff,
    fun v => ⟨v.negate_eq_mul, v.negate_eq_overflow_iff⟩⟩

/-- An integer is not divided by a duration, zero or not; an integer zero is no divisor; and the
least duration has no opposite, whether it is divided or multiplied. -/
example :
    Operator.div.apply (.integer 1) (.duration ⟨0⟩) =
      .error (.unsupportedOperandTypes .div .integer .duration) ∧
    Operator.div.apply (.duration ⟨7⟩) (.integer 0) = .error .divisionByZero ∧
    Operator.div.apply (.duration ⟨-7⟩) (.integer 2) = .ok (.duration ⟨-3⟩) ∧
    Operator.div.apply (.duration ⟨Int64.minValue⟩) (.integer (-1)) = .error .overflow ∧
    Operator.mul.apply (.integer (-1)) (.duration ⟨Int64.minValue⟩) = .error .overflow :=
  ⟨rfl, rfl, rfl, rfl, rfl⟩

/-! ## Runs of steps -/

namespace Value

/-- A quantity after a step: the exact result, or the same where there is none. -/
def Step.onQuantity (q : Quantity) : Step → Quantity
  | negate => q.negate.toOption.getD q
  | asDuration => q
  | apply op right => (Quantity.apply op q right.quantity).toOption.getD q
  | applyTo op left => (Quantity.apply op left.quantity q).toOption.getD q

/-- The value after a step has the exact quantity, or is the same as before. -/
theorem quantity_next (current : Value) (step : Step) :
    (stepwise.next current step).quantity = step.onQuantity current.quantity := by
  have hresult : ∀ result : Except EvaluationError Value,
      (result.toOption.getD current).quantity =
        (result.map quantity).toOption.getD current.quantity := by
    intro result
    cases result <;> rfl
  cases step with
  | negate => exact (hresult current.negate).trans (by rw [map_quantity_negate]; rfl)
  | asDuration => cases current <;> rfl
  | apply op right =>
      exact (hresult (op.apply current right)).trans (by rw [Operator.map_quantity_apply]; rfl)
  | applyTo op left =>
      exact (hresult (op.apply left current)).trans (by rw [Operator.map_quantity_apply]; rfl)

/-- A run is exact, one step after the other. -/
theorem quantity_last_runSteps (current : Value) (steps : List Step) :
    (current.runSteps steps).2.quantity = steps.foldl Step.onQuantity current.quantity :=
  stepwise.last_run_map quantity_next current steps

/-- A step makes no integer of a duration. -/
theorem Step.kind_of_run {step : Step} {current v : Value} (hkind : current.kind = .duration)
    (h : step.run current = .ok v) : v.kind = .duration := by
  have hleft (other : ValueKind) : ValueKind.duration.join other = .duration := by
    cases other <;> rfl
  have hright (other : ValueKind) : other.join .duration = .duration := by
    cases other <;> rfl
  cases step with
  | negate =>
      have hproduct : Operator.mul.apply current (.integer (-1)) = .ok v :=
        (negate_eq_mul current).symm.trans h
      have hresult := (Operator.apply_eq_ok_iff.1 hproduct).2.2.1
      rwa [hkind, hleft] at hresult
  | asDuration =>
      cases current with
      | duration d =>
          cases h
          rfl
      | integer n => cases hkind
  | apply op right =>
      have hresult := (Operator.apply_eq_ok_iff.1 h).2.2.1
      rwa [hkind, hleft] at hresult
  | applyTo op left =>
      have hresult := (Operator.apply_eq_ok_iff.1 h).2.2.1
      rwa [hkind, hright] at hresult

/-- From a duration every step of a run that does not fail leads to a duration. -/
theorem runSteps_of_duration {current : Value} (h : current.kind = .duration)
    (steps : List Step) :
    (∀ v, .ok v ∈ (current.runSteps steps).1 → v.kind = .duration) ∧
      (current.runSteps steps).2.kind = .duration := by
  have hstep : ∀ {current : Value} {step : Step} {v : Value}, current.kind = .duration →
      stepwise.changed? (stepwise.answer current step) = some v → v.kind = .duration := by
    intro current step v hkind hchanged
    exact Step.kind_of_run hkind (changed?_answer_eq_some_iff.1 hchanged)
  obtain ⟨hresults, hlast⟩ := stepwise.run_of_invariant hstep h steps
  exact ⟨fun v hv => hresults _ hv v rfl, hlast⟩

end Value

end DurationCalculator
