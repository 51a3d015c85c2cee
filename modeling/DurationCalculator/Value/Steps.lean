import DurationCalculator.Steps
import DurationCalculator.Value.Arithmetic

/-!
# Stepwise changes of a value

A current value and the steps that change it. A step that fails leaves the value as
it is (`Stepwise.next_of_refused`).
-/

set_option autoImplicit false

namespace DurationCalculator.Value

/-- A change of the current value. -/
inductive Step where
  /-- To the value of opposite sign. -/
  | negate
  /-- To itself, if it is a duration. -/
  | asDuration
  /-- To the result of an operator with the current value on its left. -/
  | apply (op : Operator) (right : Value)
  /-- To the result of an operator with the current value on its right. -/
  | applyTo (op : Operator) (left : Value)
deriving DecidableEq

/-- What a step makes of the current value. -/
def Step.run (current : Value) : Step → Except EvaluationError Value
  | negate => current.negate
  | asDuration => current.asDuration.map .duration
  | apply op right => op.apply current right
  | applyTo op left => op.apply left current

/-- The steps on a value. -/
def stepwise : Stepwise Value Step (Except EvaluationError Value) where
  answer current step := step.run current
  changed? := Except.toOption

/-- A step changes the value to its result. -/
theorem changed?_answer_eq_some_iff {current v : Value} {step : Step} :
    stepwise.changed? (stepwise.answer current step) = some v ↔ step.run current = .ok v := by
  change (step.run current).toOption = some v ↔ _
  cases step.run current <;> simp [Except.toOption]

/-- The results of all steps, and the value after the last. -/
def runSteps (current : Value) (steps : List Step) :
    List (Except EvaluationError Value) × Value :=
  stepwise.run current steps

end DurationCalculator.Value
