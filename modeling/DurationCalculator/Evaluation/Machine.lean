import DurationCalculator.Value.Arithmetic

/-!
# Evaluation

A machine with one stack reads the tokens from left to right. It keeps no tree:
operators have no precedence, and an operand is joined to what stands on its left
as soon as it is complete. Two operands without an operator between them are added.
An operator is binary behind an operand and a sign elsewhere. Behind the last operand
of a level an operator may stand alone; it is ignored. An empty level is the zero
duration.

`run` gives the operations performed, in order, the number of tokens read and the
control reached. A run can be split at any token (`control_run_append`,
`trace_run_append`, `consumed_run_append`). `evaluateUntil` makes an outcome of it; a
run that finds no terminator wants one token more than there are.
-/

set_option autoImplicit false

namespace DurationCalculator

/-- One binary operation that was performed, on values of the type `α`. -/
structure OperationOn (α : Type) where
  left : α
  operator : Operator
  right : α
  result : α
deriving DecidableEq

/-- One binary operation that was performed. -/
abbrev Operation := OperationOn Value

/-- The token that ends a level. -/
inductive Terminator where
  | endOfInput
  | closingParenthesis
deriving DecidableEq

/-- The token of a terminator. -/
def Terminator.token : Terminator → Token
  | endOfInput => .endOfInput
  | closingParenthesis => .rightParenthesis

/-- The value of a literal. -/
def Literal.value : Literal → Except EvaluationError Value
  | duration text => ((DurationLiteral.parse text).mapError .literal).map .duration
  | integer text => ((IntegerLiteral.parse text).mapError .literal).map .integer

namespace Evaluation

/-! ## Control -/

/-- What stands in front of an operand at its level: the value so far and the
operator that will join the operand to it, if there is one, and a sign. -/
structure Context where
  pending : Option (Value × Operator)
  negative : Bool
deriving DecidableEq

/-- How far the innermost level has been read. -/
inductive Phase where
  /-- Nothing has been read. -/
  | start
  /-- The operands so far have this value. -/
  | operand (left : Value)
  /-- An operator stands behind the operands so far. -/
  | operator (left : Value) (op : Operator)
  /-- A sign has been read, and its operand must follow. -/
  | sign (context : Context)
deriving DecidableEq

/-- The control of the machine: running at a phase, inside the groups whose contexts
are on the stack, innermost first; or halted. -/
inductive Control where
  | running (phase : Phase) (stack : List Context)
  | done (value : Value)
  | failed (error : EvaluationError)
deriving DecidableEq

/-! ## Steps -/

/-- The outcome of a step: the operation performed, if any, and the next control. -/
structure Step where
  operation : Option Operation
  next : Control
deriving DecidableEq

/-- A step that performs no operation. -/
def Step.silent (next : Control) : Step := ⟨none, next⟩

/-- A step that fails. -/
def Step.fail (error : EvaluationError) : Step := ⟨none, .failed error⟩

/-- Completes an operand of value `value`: its sign is applied first, then the
operator that joins it to what stands on its left. -/
def deliver (context : Context) (value : Value) (stack : List Context) : Step :=
  match if context.negative then value.negate else .ok value with
  | .error e => .fail e
  | .ok right =>
      match context.pending with
      | none => .silent (.running (.operand right) stack)
      | some (left, op) =>
          match op.apply left right with
          | .error e => .fail e
          | .ok result =>
              ⟨some ⟨left, op, right, result⟩, .running (.operand result) stack⟩

/-- Ends the innermost level, which has the value `value`. -/
def close (value : Value) : List Context → Step
  | [] => .silent (.done value)
  | context :: stack => deliver context value stack

/-- The step on a token where an operand without a sign is required. -/
def readOperand (context : Context) (stack : List Context) : Token → Step
  | .leftParenthesis => .silent (.running .start (context :: stack))
  | .literal l =>
      match l.value with
      | .error e => .fail e
      | .ok value => deliver context value stack
  | .rightParenthesis => .fail .unexpectedClosingParenthesis
  | .endOfInput => .fail .unexpectedEndOfInput
  | token => .fail (.unexpectedToken token)

/-- The step on a token where an operand is required that may have a sign. -/
def readSigned (pending : Option (Value × Operator)) (stack : List Context) :
    Token → Step
  | .plus => .silent (.running (.sign ⟨pending, false⟩) stack)
  | .minus => .silent (.running (.sign ⟨pending, true⟩) stack)
  | token => readOperand ⟨pending, false⟩ stack token

/-- The token that ends the innermost level. A group ends at a closing parenthesis,
the outermost level at the terminator of the evaluation. -/
def terminator (outer : Terminator) : List Context → Terminator
  | [] => outer
  | _ :: _ => .closingParenthesis

/-- The step at a phase of the innermost level. -/
def stepPhase (outer : Terminator) (stack : List Context) (token : Token) : Phase → Step
  | .start =>
      if token = (terminator outer stack).token then close (.duration Duration.zero) stack
      else readSigned none stack token
  | .operand left =>
      if token = (terminator outer stack).token then close left stack
      else
        match token.operator? with
        | some op => .silent (.running (.operator left op) stack)
        | none => readSigned (some (left, .add)) stack token
  | .operator left op =>
      if token = (terminator outer stack).token then close left stack
      else readSigned (some (left, op)) stack token
  | .sign context => readOperand context stack token

/-! ## Runs -/

/-- What a run leaves behind. -/
structure Run where
  /-- The operations performed, in order. -/
  trace : List Operation
  /-- The number of tokens read before the machine halted. -/
  consumed : Nat
  /-- The control reached. -/
  control : Control
deriving DecidableEq

/-- Runs the machine over a token list, until it halts. -/
def run (outer : Terminator) : Control → List Token → Run
  | .running phase stack, token :: rest =>
      let now := stepPhase outer stack token phase
      let later := run outer now.next rest
      ⟨now.operation.toList ++ later.trace, later.consumed + 1, later.control⟩
  | control, _ => ⟨[], 0, control⟩

section Run

variable (outer : Terminator)

/-- A run over no tokens does nothing. -/
theorem run_nil (control : Control) : run outer control [] = ⟨[], 0, control⟩ := by
  cases control <;> rfl

/-- A run over two lists reaches what the run over the second reaches from where the
run over the first has stopped. -/
theorem control_run_append (xs ys : List Token) (control : Control) :
    (run outer control (xs ++ ys)).control =
      (run outer (run outer control xs).control ys).control := by
  induction xs generalizing control with
  | nil => rw [run_nil, List.nil_append]
  | cons x xs ih =>
      cases control with
      | running phase stack => exact ih _
      | done value => cases ys <;> rfl
      | failed error => cases ys <;> rfl

/-- The operations of a run over two lists are those over the first, then those over
the second. -/
theorem trace_run_append (xs ys : List Token) (control : Control) :
    (run outer control (xs ++ ys)).trace =
      (run outer control xs).trace ++ (run outer (run outer control xs).control ys).trace := by
  induction xs generalizing control with
  | nil => rw [run_nil, List.nil_append, List.nil_append]
  | cons x xs ih =>
      cases control with
      | running phase stack =>
          simp only [List.cons_append, run, ih, List.append_assoc]
      | done value => cases ys <;> rfl
      | failed error => cases ys <;> rfl

/-- A run over two lists reads what it reads of the first and then of the second. -/
theorem consumed_run_append (xs ys : List Token) (control : Control) :
    (run outer control (xs ++ ys)).consumed =
      (run outer control xs).consumed +
        (run outer (run outer control xs).control ys).consumed := by
  induction xs generalizing control with
  | nil => rw [run_nil, List.nil_append, Nat.zero_add]
  | cons x xs ih =>
      cases control with
      | running phase stack =>
          simp only [List.cons_append, run, ih]
          exact Nat.add_right_comm _ _ _
      | done value => cases ys <;> rfl
      | failed error => cases ys <;> rfl

end Run

end Evaluation

/-! ## Outcomes -/

/-- What an evaluation yields. -/
structure Outcome where
  /-- The value, or the first error. -/
  result : Except Error Value
  /-- The operations performed, in order, also those before an error. -/
  trace : List Operation

/-- The result of a control that was reached at `cursor` among `length` tokens. -/
def Evaluation.Control.result (cursor length : Nat) : Control → Except Error Value
  | .done value => .ok value
  | .failed e => .error (.evaluation e)
  | .running _ _ => .error (.cursorOutOfRange cursor length)

/-- Evaluates the tokens from `start` on, up to the terminator of their level. The
second component is the position behind the last token read. -/
def evaluateUntil (outer : Terminator) (tokens : List Token) (start : Nat) : Outcome × Nat :=
  let run := Evaluation.run outer (.running .start []) (tokens.drop start)
  let cursor := start + run.consumed
  (⟨run.control.result cursor tokens.length, run.trace⟩, cursor)

/-- Evaluates a token list up to the first end of input at the outermost level. -/
def evaluateTokens (tokens : List Token) : Outcome := (evaluateUntil .endOfInput tokens 0).1

end DurationCalculator
