import DurationCalculator.Proofs.Evaluation.Reading

/-!
# What a step of the machine can do

A step ends the evaluation, opens or closes a group, reads an operator, a sign or a literal, or
reports its token (`Move`, `stepPhase_move`). Only a literal and a closing parenthesis deliver a
value, and only a delivery performs an operation. So what is to hold along every run is checked move
by move, and the delivery of a value once for both.
-/

set_option autoImplicit false

namespace DurationCalculator.Evaluation

open Grammar

/-! ## Moves -/

/-- The phases in which a sign may be read. -/
def Phase.TakesSign : Phase → Prop
  | start => True
  | operator _ _ => True
  | _ => False

/-- The steps on a token at a phase, inside the groups on the stack. -/
inductive Move (outer : Terminator) : Phase → List Context → Token → Step → Prop where
  | misplaced {token : Token} {e : EvaluationError} (phase : Phase) (stack : List Context) :
      token.misplaced? = some e → Move outer phase stack token (.fail e)
  | unreadable {l : Literal} {e : EvaluationError} (phase : Phase) (stack : List Context) :
      l.value = .error e → Move outer phase stack (.literal l) (.fail e)
  /-- The terminator of the outermost level. -/
  | ended {phase : Phase} {value : Value} (token : Token) : phase.value? = some value →
      token = outer.token → Move outer phase [] token (.silent (.done value))
  | opened (phase : Phase) (stack : List Context) :
      Move outer phase stack .leftParenthesis (.silent (.running .start (phase.context :: stack)))
  | closed {phase : Phase} {value : Value} (context : Context) (stack : List Context) :
      phase.value? = some value →
      Move outer phase (context :: stack) .rightParenthesis (deliver context value stack)
  | joint (left : Value) (op : Operator) (stack : List Context) :
      Move outer (.operand left) stack op.token (.silent (.running (.operator left op) stack))
  | signed {phase : Phase} (stack : List Context) (sign : Sign) : phase.TakesSign →
      Move outer phase stack sign.token
        (.silent (.running (.sign ⟨phase.context.pending, sign = .minus⟩) stack))
  | literal {l : Literal} {value : Value} (phase : Phase) (stack : List Context) :
      l.value = .ok value →
      Move outer phase stack (.literal l) (deliver phase.context value stack)

section Move

variable (outer : Terminator) (phase : Phase) (stack : List Context)

/-- Where an operand is required, only a literal and an opening parenthesis are not misplaced. -/
theorem readOperand_move (token : Token) :
    Move outer phase stack token (readOperand phase.context stack token) := by
  cases token with
  | leftParenthesis => exact .opened phase stack
  | literal l =>
      rw [readOperand]
      cases hvalue : l.value with
      | error e => exact .unreadable phase stack hvalue
      | ok value => exact .literal phase stack hvalue
  | _ => exact .misplaced phase stack rfl

/-- An operator joins operands, is a sign or is misplaced. -/
theorem stepPhase_operator_move (op : Operator) :
    Move outer phase stack op.token (stepPhase outer stack op.token phase) := by
  have hne : op.token ≠ (terminator outer stack).token := by
    cases op <;> cases terminator outer stack <;> nofun
  -- where no operand stands in front of it, the operator is a sign or misplaced
  have hsigned (pending : Option (Value × Operator)) (hphase : phase.TakesSign)
      (hcontext : phase.context = ⟨pending, false⟩) :
      Move outer phase stack op.token (readSigned pending stack op.token) := by
    have hpending : phase.context.pending = pending := by rw [hcontext]
    cases op with
    | add => exact hpending ▸ .signed stack .plus hphase
    | sub => exact hpending ▸ .signed stack .minus hphase
    | mul => exact .misplaced phase stack rfl
    | div => exact .misplaced phase stack rfl
  cases phase with
  | start =>
      rw [stepPhase, if_neg hne]
      exact hsigned none trivial rfl
  | operand left =>
      rw [stepPhase_operator]
      exact .joint left op stack
  | operator left joint =>
      rw [stepPhase, if_neg hne]
      exact hsigned (some (left, joint)) trivial rfl
  | sign context => exact readOperand_move outer (.sign context) stack op.token

/-- The terminator of a level ends it, unless a sign stands in front of it. -/
theorem stepPhase_terminator_move :
    Move outer phase stack (terminator outer stack).token
      (stepPhase outer stack (terminator outer stack).token phase) := by
  cases hvalue : phase.value? with
  | none =>
      have hop : (terminator outer stack).token.operator? = none := by
        cases terminator outer stack <;> rfl
      rw [stepPhase_of_operator?_eq_none outer stack hop (Or.inl hvalue)]
      exact readOperand_move outer phase stack _
  | some value =>
      rw [stepPhase_terminator outer stack hvalue]
      cases stack with
      | nil => exact .ended _ hvalue rfl
      | cons context rest => exact .closed context rest hvalue

/-- Every step is a move. -/
theorem stepPhase_move (token : Token) :
    Move outer phase stack token (stepPhase outer stack token phase) := by
  by_cases hend : (terminator outer stack).token = token
  · rw [← hend]
    exact stepPhase_terminator_move outer phase stack
  · -- what ends no level is an operator or what an operand starts with
    cases hop : token.operator? with
    | none =>
        rw [stepPhase_of_operator?_eq_none outer stack hop (Or.inr hend)]
        exact readOperand_move outer phase stack token
    | some op =>
        rw [← Operator.token_of_operator? hop]
        exact stepPhase_operator_move outer phase stack op

variable {outer phase stack}

/-- A delivery never ends the evaluation. -/
theorem Delivery.next_ne_done {context : Context} {value : Value} {step : Step}
    (h : Delivery context value stack step) (result : Value) : step.next ≠ .done result := by
  cases h <;> nofun

/-- A delivery that is not refused leaves the machine behind an operand of its level. -/
theorem Delivery.operand_of_next {context : Context} {value : Value} {step : Step} {phase : Phase}
    {stack' : List Context} (h : Delivery context value stack step)
    (hnext : step.next = .running phase stack') :
    (∃ left, phase = .operand left) ∧ stack' = stack := by
  cases h with
  | refused _ => cases hnext
  | first _ _ =>
      cases hnext
      exact ⟨⟨_, rfl⟩, rfl⟩
  | joined _ _ _ =>
      cases hnext
      exact ⟨⟨_, rfl⟩, rfl⟩

/-- Only the terminator of the outermost level ends the evaluation with a value. -/
theorem Move.ended_of_next {token : Token} {step : Step} {value : Value}
    (h : Move outer phase stack token step) (hnext : step.next = .done value) :
    stack = [] ∧ phase.value? = some value ∧ token = outer.token ∧ step.operation = none := by
  cases h with
  | ended _ hvalue htoken =>
      cases hnext
      exact ⟨rfl, hvalue, htoken, rfl⟩
  | closed _ _ _ => exact absurd hnext ((deliver_delivery _ _ _).next_ne_done value)
  | literal _ _ _ => exact absurd hnext ((deliver_delivery _ _ _).next_ne_done value)
  | _ => cases hnext

end Move

/-! ## Runs by one more token -/

section Run

variable {outer : Terminator} {control : Control} {tokens : List Token} {phase : Phase}
  {stack : List Context}

/-- A machine that still runs takes one more step on one more token. -/
theorem run_concat (h : (run outer control tokens).control = .running phase stack) (token : Token) :
    (run outer control (tokens ++ [token])).trace =
        (run outer control tokens).trace ++
          (stepPhase outer stack token phase).operation.toList ∧
      (run outer control (tokens ++ [token])).control =
        (stepPhase outer stack token phase).next := by
  rw [trace_run_append, control_run_append, h]
  simp [run, run_nil]

/-- A machine that runs behind a token was running in front of it. -/
theorem exists_running_of_concat {token : Token}
    (h : (run outer control (tokens ++ [token])).control = .running phase stack) :
    ∃ phase' stack', (run outer control tokens).control = .running phase' stack' ∧
      (stepPhase outer stack' token phase').next = .running phase stack := by
  rw [control_run_append] at h
  cases hbefore : (run outer control tokens).control with
  | running phase' stack' =>
      rw [hbefore] at h
      refine ⟨phase', stack', rfl, ?_⟩
      rwa [run, run_nil] at h
  | done value =>
      rw [hbefore] at h
      cases h
  | failed e =>
      rw [hbefore] at h
      cases h

end Run

end DurationCalculator.Evaluation
