/-!
# Runs of steps

A state that is changed step by step. A step gives an answer, and the answer may hold a
new state. Where it holds none the step is refused, and the state stays as it is
(`next_of_refused`). So a run does not depend on its refused steps: without them it
gives the other answers and ends in the same state (`run_accepted`).
-/

set_option autoImplicit false

namespace DurationCalculator

/-- Steps on a state. -/
structure Stepwise (State Step Answer : Type) where
  /-- The answer to a step. -/
  answer : State → Step → Answer
  /-- The new state that an answer holds. -/
  changed? : Answer → Option State

namespace Stepwise

variable {State Step Answer : Type} (S : Stepwise State Step Answer)

/-- The state after a step. -/
def next (current : State) (step : Step) : State :=
  (S.changed? (S.answer current step)).getD current

/-- The answers to all steps, and the state after the last. -/
def run (current : State) : List Step → List Answer × State
  | [] => ([], current)
  | step :: rest =>
      let answer := S.answer current step
      let (answers, last) := run ((S.changed? answer).getD current) rest
      (answer :: answers, last)

/-- The steps of a run that are not refused. -/
def accepted (current : State) : List Step → List Step
  | [] => []
  | step :: rest =>
      let later := accepted (S.next current step) rest
      if (S.changed? (S.answer current step)).isSome then step :: later else later

variable {current state : State} {step : Step}

/-! ## One step -/

/-- A refused step leaves the state as it is. -/
theorem next_of_refused (h : S.changed? (S.answer current step) = none) :
    S.next current step = current := by
  rw [next, h]
  rfl

theorem next_of_changed (h : S.changed? (S.answer current step) = some state) :
    S.next current step = state := by
  rw [next, h]
  rfl

/-- What every new state has is kept by a step. -/
theorem next_of_invariant {Inv : State → Prop}
    (hchanged : ∀ state, S.changed? (S.answer current step) = some state → Inv state)
    (h : Inv current) : Inv (S.next current step) := by
  cases hanswer : S.changed? (S.answer current step) with
  | none => rwa [S.next_of_refused hanswer]
  | some state =>
      rw [S.next_of_changed hanswer]
      exact hchanged state hanswer

/-! ## Runs -/

theorem run_cons (current : State) (step : Step) (rest : List Step) :
    S.run current (step :: rest) =
      (S.answer current step :: (S.run (S.next current step) rest).1,
        (S.run (S.next current step) rest).2) := rfl

/-- A run can be split at any step. -/
theorem run_append (current : State) (xs ys : List Step) :
    S.run current (xs ++ ys) =
      ((S.run current xs).1 ++ (S.run (S.run current xs).2 ys).1,
        (S.run (S.run current xs).2 ys).2) := by
  induction xs generalizing current with
  | nil => rfl
  | cons step rest ih => rw [List.cons_append, run_cons, run_cons, ih, List.cons_append]

/-- Refused steps leave nothing behind but their answers. -/
theorem run_accepted (current : State) (steps : List Step) :
    S.run current (S.accepted current steps) =
      ((S.run current steps).1.filter fun answer => (S.changed? answer).isSome,
        (S.run current steps).2) := by
  induction steps generalizing current with
  | nil => rfl
  | cons step rest ih =>
      rw [accepted, run_cons]
      cases hanswer : S.changed? (S.answer current step) with
      | none =>
          -- the rest is run from the same state
          simp only [Option.isSome_none, Bool.false_eq_true, if_false, List.filter_cons, hanswer]
          rw [S.next_of_refused hanswer, ih]
      | some state =>
          simp only [Option.isSome_some, if_true, List.filter_cons, hanswer]
          rw [run_cons, ih]

/-- What a step makes of some image of the state, a run makes of it step by step. -/
theorem last_run_map {α : Type} {image : State → α} {onImage : α → Step → α}
    (hstep : ∀ current step, image (S.next current step) = onImage (image current) step)
    (current : State) (steps : List Step) :
    image (S.run current steps).2 = steps.foldl onImage (image current) := by
  induction steps generalizing current with
  | nil => rfl
  | cons step rest ih => rw [run_cons, ih, hstep, List.foldl_cons]

/-- What every step keeps holds of all states of a run. -/
theorem run_of_invariant {Inv : State → Prop}
    (hstep : ∀ {current step state}, Inv current →
      S.changed? (S.answer current step) = some state → Inv state)
    (h : Inv current) (steps : List Step) :
    (∀ answer ∈ (S.run current steps).1, ∀ state, S.changed? answer = some state → Inv state) ∧
      Inv (S.run current steps).2 := by
  induction steps generalizing current with
  | nil => exact ⟨nofun, h⟩
  | cons step rest ih =>
      obtain ⟨hanswers, hlast⟩ := ih (S.next_of_invariant (fun _ => hstep h) h)
      rw [run_cons]
      refine ⟨?_, hlast⟩
      intro answer hanswer state hstate
      rcases List.mem_cons.1 hanswer with rfl | hlater
      · exact hstep h hstate
      · exact hanswers answer hlater state hstate

end Stepwise

end DurationCalculator
