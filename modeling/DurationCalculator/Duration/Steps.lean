import DurationCalculator.Duration.Basic
import DurationCalculator.Steps

/-!
# Stepwise changes of a duration

A current duration, the checked operations that change it, and comparisons, which do
not. An operation whose result is out of range is refused and leaves the duration as it
is (`Stepwise.next_of_refused`). Over unbounded integers a run replaces the count by
each exact result that lies in the range, and by no other (`count_last_runSteps`).
-/

set_option autoImplicit false

namespace DurationCalculator.Duration

/-- A step on the current duration. -/
inductive Step where
  | add (other : Duration)
  | sub (other : Duration)
  | mul (factor : Int64)
  | div (divisor : Int64)
  | negate
  | compare (other : Duration)
deriving DecidableEq

/-- What a step answers. -/
inductive Answer where
  /-- The new duration. -/
  | changed (d : Duration)
  /-- There is no new duration. -/
  | unchanged
  /-- How the current duration compares with the other one. -/
  | ordered (order : Ordering)
deriving DecidableEq

/-- The answer to an operation. -/
def Answer.ofResult : Option Duration → Answer
  | some d => changed d
  | none => unchanged

/-- The new duration of an answer. -/
def Answer.changed? : Answer → Option Duration
  | changed d => some d
  | unchanged => none
  | ordered _ => none

/-- The answer to a step on the current duration. -/
def Step.answer (current : Duration) : Step → Answer
  | add other => .ofResult (current.add? other)
  | sub other => .ofResult (current.sub? other)
  | mul factor => .ofResult (current.mul? factor)
  | div divisor => .ofResult (current.div? divisor)
  | negate => .ofResult current.neg?
  | compare other => .ordered (Ord.compare current other)

/-- The steps on a duration. -/
def stepwise : Stepwise Duration Step Answer where
  answer current step := step.answer current
  changed? := Answer.changed?

/-- The answers to all steps, and the duration after the last. -/
def runSteps (current : Duration) (steps : List Step) : List Answer × Duration :=
  stepwise.run current steps

/-! ## Counts -/

/-- The exact count that a step asks for. A comparison asks for none, and there is none behind a
division by zero. -/
def Step.exactCount? (count : Int) : Step → Option Int
  | add other => some (count + other.count)
  | sub other => some (count - other.count)
  | mul factor => some (count * factor.toInt)
  | div divisor => if divisor = 0 then none else some (count.tdiv divisor.toInt)
  | negate => some (-count)
  | compare _ => none

/-- The count after a step: the exact one, if there is one in the range. -/
def Step.onCount (count : Int) (step : Step) : Int :=
  match step.exactCount? count with
  | some wanted => if Checked.InRange wanted then wanted else count
  | none => count

theorem Answer.changed?_ofResult (result : Option Duration) :
    (ofResult result).changed? = result := by
  cases result <;> rfl

/-- A step changes the duration to the one of the exact count, where there is one. -/
theorem Step.changed?_answer (current : Duration) (step : Step) :
    (step.answer current).changed? = (step.exactCount? current.count).bind ofCount? := by
  cases step with
  | add other => exact Answer.changed?_ofResult _
  | sub other => exact Answer.changed?_ofResult _
  | mul factor => exact Answer.changed?_ofResult _
  | div divisor =>
      rw [answer, Answer.changed?_ofResult, div?, exactCount?]
      split <;> rfl
  | negate => exact Answer.changed?_ofResult _
  | compare other => rfl

/-- The count after a step is the exact one in the range, or the same as before. -/
theorem count_next (current : Duration) (step : Step) :
    (stepwise.next current step).count = step.onCount current.count := by
  have hchanged : stepwise.changed? (stepwise.answer current step) =
      (step.exactCount? current.count).bind ofCount? := step.changed?_answer current
  unfold Step.onCount
  cases hexact : step.exactCount? current.count with
  | none =>
      rw [hexact] at hchanged
      rw [stepwise.next_of_refused hchanged]
  | some wanted =>
      rw [hexact, Option.bind_some] at hchanged
      dsimp only
      split
      next hrange =>
        obtain ⟨d, hd⟩ := exists_count_eq hrange
        rw [ofCount?_eq_some_iff.2 hd] at hchanged
        rw [stepwise.next_of_changed hchanged, hd]
      next hrange =>
        rw [ofCount?_eq_none_iff.2 hrange] at hchanged
        rw [stepwise.next_of_refused hchanged]

/-- A run takes the exact counts that lie in the range, one after the other. -/
theorem count_last_runSteps (current : Duration) (steps : List Step) :
    (current.runSteps steps).2.count = steps.foldl Step.onCount current.count :=
  stepwise.last_run_map count_next current steps

/-- The largest duration is neither doubled nor divided by zero, and is then as it was. -/
example :
    runSteps ⟨Int64.maxValue⟩ [.mul 2, .div 0, .negate, .compare zero] =
      ([.unchanged, .unchanged, .changed ⟨-Int64.maxValue⟩, .ordered .lt],
        ⟨-Int64.maxValue⟩) := by
  decide

end DurationCalculator.Duration
