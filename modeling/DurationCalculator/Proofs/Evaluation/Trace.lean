import Mathlib.Data.List.Induction
import DurationCalculator.Proofs.Evaluation.Moves
import DurationCalculator.Proofs.Evaluation.Unread

/-!
# Entries of a trace

Every entry of a trace is an operation with its result, whether the evaluation succeeds or fails
(`apply_of_mem_run`).

The entries are counted from the operands. A literal is an operand, and so is an empty group; any
other group stands for the operands in it. An operand that has been read is either joined to the one
on its left, which is an entry, or its value is still held, by the innermost level or by one around
it. So the operands are as many as the entries and the values held (`Accounted`); at the end, one
value is held. That gives the length of the trace (`trace_sound_and_complete`).
-/

set_option autoImplicit false

namespace DurationCalculator

/-! ## Counting tokens -/

/-- The token is a literal. -/
def Token.isLiteral : Token → Bool
  | literal _ => true
  | _ => false

/-- The number of literals. -/
def literalCount (tokens : List Token) : Nat := tokens.countP Token.isLiteral

/-- The number of places where an opening parenthesis is directly followed by a closing one. -/
def emptyGroupCount (tokens : List Token) : Nat :=
  (tokens.zip tokens.tail).count (.leftParenthesis, .rightParenthesis)

/-- An operator writes no operand. -/
theorem Operator.not_operand_token (op : Operator) :
    op.token.isLiteral = false ∧ op.token ≠ .leftParenthesis ∧
      op.token ≠ .rightParenthesis := by
  cases op <;> exact ⟨rfl, nofun, nofun⟩

/-- A sign is written like an operator. -/
theorem Grammar.Sign.exists_operator_token (sign : Sign) :
    ∃ op : Operator, op.token = sign.token := by
  cases sign with
  | plus => exact ⟨.add, rfl⟩
  | minus => exact ⟨.sub, rfl⟩

theorem literalCount_concat (tokens : List Token) (token : Token) :
    literalCount (tokens ++ [token]) = literalCount tokens + if token.isLiteral then 1 else 0 := by
  simp [literalCount, List.countP_singleton]

/-- One more token makes one more pair with the token in front of it. -/
theorem zip_tail_concat (tokens : List Token) (last token : Token) :
    (tokens ++ [last, token]).zip (tokens ++ [last, token]).tail =
      (tokens ++ [last]).zip (tokens ++ [last]).tail ++ [(last, token)] := by
  induction tokens with
  | nil => rfl
  | cons first tokens ih =>
      cases tokens with
      | nil => rfl
      | cons second tokens => simpa using ih

/-- A closing parenthesis behind an opening one makes an empty group. -/
theorem emptyGroupCount_close {tokens : List Token}
    (h : tokens.getLast? = some .leftParenthesis) :
    emptyGroupCount (tokens ++ [.rightParenthesis]) = emptyGroupCount tokens + 1 := by
  obtain ⟨before, rfl⟩ := List.getLast?_eq_some_iff.1 h
  rw [emptyGroupCount, List.append_assoc, List.singleton_append, zip_tail_concat, List.count_append]
  rfl

/-- No other token makes an empty group. -/
theorem emptyGroupCount_concat {tokens : List Token} {token : Token}
    (h : tokens.getLast? = some .leftParenthesis → token ≠ .rightParenthesis) :
    emptyGroupCount (tokens ++ [token]) = emptyGroupCount tokens := by
  cases hlast : tokens.getLast? with
  | none =>
      rw [List.getLast?_eq_none_iff.1 hlast]
      rfl
  | some last =>
      obtain ⟨before, rfl⟩ := List.getLast?_eq_some_iff.1 hlast
      rw [hlast] at h
      have hpair : ¬((Token.leftParenthesis, Token.rightParenthesis) = (last, token)) := by
        rintro heq
        obtain ⟨rfl, rfl⟩ := Prod.mk.inj heq
        exact h rfl rfl
      rw [emptyGroupCount, List.append_assoc, List.singleton_append, zip_tail_concat,
        List.count_append, List.count_singleton]
      simp [emptyGroupCount, Ne.symm hpair]

/-- The number of operands that the tokens write. -/
def operandCount (tokens : List Token) : Nat := literalCount tokens + emptyGroupCount tokens

theorem operandCount_concat {tokens : List Token} {token : Token}
    (hliteral : token.isLiteral = false)
    (hclose : tokens.getLast? = some .leftParenthesis → token ≠ .rightParenthesis) :
    operandCount (tokens ++ [token]) = operandCount tokens := by
  rw [operandCount, literalCount_concat, emptyGroupCount_concat hclose, hliteral]
  rfl

theorem operandCount_literal (tokens : List Token) (l : Literal) :
    operandCount (tokens ++ [.literal l]) = operandCount tokens + 1 := by
  have hclose : Token.literal l ≠ .rightParenthesis := nofun
  rw [operandCount, literalCount_concat, emptyGroupCount_concat fun _ => hclose, operandCount]
  exact Nat.add_right_comm _ _ _

theorem operandCount_close {tokens : List Token} (h : tokens.getLast? = some .leftParenthesis) :
    operandCount (tokens ++ [.rightParenthesis]) = operandCount tokens + 1 := by
  rw [operandCount, literalCount_concat, emptyGroupCount_close h]
  rfl

namespace Evaluation

/-! ## Entries are operations with their results -/

section Entries

variable {outer : Terminator} {phase : Phase} {stack : List Context} {token : Token}

/-- A delivery records the operation that it performs, if there is one. -/
theorem Delivery.apply_of_mem {context : Context} {value : Value} {step : Step}
    (h : Delivery context value stack step) {o : Operation} (ho : o ∈ step.operation) :
    o.operator.apply o.left o.right = .ok o.result := by
  cases h with
  | refused _ => cases ho
  | first _ _ => cases ho
  | joined _ _ happly =>
      cases ho
      exact happly

theorem Move.apply_of_mem {step : Step} (h : Move outer phase stack token step) {o : Operation}
    (ho : o ∈ step.operation) : o.operator.apply o.left o.right = .ok o.result := by
  cases h with
  | literal _ _ _ => exact (deliver_delivery _ _ _).apply_of_mem ho
  | closed _ _ _ => exact (deliver_delivery _ _ _).apply_of_mem ho
  | _ => cases ho

/-- Every operation of a run has the result that is recorded. -/
theorem apply_of_mem_run {control : Control} {tokens : List Token} {o : Operation}
    (h : o ∈ (run outer control tokens).trace) :
    o.operator.apply o.left o.right = .ok o.result := by
  -- on the tokens; each step records the operation that it performs
  induction tokens generalizing control with
  | nil =>
      rw [run_nil] at h
      cases h
  | cons token rest ih =>
      cases control with
      | running phase stack =>
          rcases List.mem_append.1 h with hnow | hlater
          · exact (stepPhase_move outer phase stack token).apply_of_mem (Option.mem_toList.1 hnow)
          · exact ih hlater
      | done value => cases h
      | failed e => cases h

end Entries

/-! ## Operands are entries or held -/

/-- The number of values that wait in front of an operand for being joined to it. -/
def Context.held (context : Context) : Nat := if context.pending.isSome then 1 else 0

/-- The number of values that wait at these levels. -/
def heldAt : List Context → Nat
  | [] => 0
  | context :: rest => context.held + heldAt rest

/-- The number of values that a level and the levels around it hold. -/
def held (phase : Phase) (stack : List Context) : Nat := heldAt (phase.context :: stack)

theorem held_eq (phase : Phase) (stack : List Context) :
    held phase stack = phase.context.held + heldAt stack := rfl

/-- A level can end before it has been begun, or it holds a value. -/
theorem Phase.held_context {phase : Phase} {value : Value} (h : phase.value? = some value) :
    phase = .start ∧ phase.context.held = 0 ∨ phase ≠ .start ∧ phase.context.held = 1 := by
  cases phase with
  | start => exact .inl ⟨rfl, rfl⟩
  | operand left => exact .inr ⟨nofun, rfl⟩
  | operator left op => exact .inr ⟨nofun, rfl⟩
  | sign context => cases h

/-- A delivery that is not refused joins the value that waits for it. -/
theorem Delivery.length_operation {context : Context} {value : Value} {stack stack' : List Context}
    {phase : Phase} {step : Step} (h : Delivery context value stack step)
    (hnext : step.next = .running phase stack') :
    step.operation.toList.length = context.held := by
  cases h with
  | refused _ => cases hnext
  | first _ hpending => simp [Step.silent, Context.held, hpending]
  | joined _ hpending _ => simp [Context.held, hpending]

/-- The account of a machine that runs at a phase, inside the groups on the stack, behind the tokens
that it has read. -/
structure Accounted (tokens : List Token) (trace : List Operation) (phase : Phase)
    (stack : List Context) : Prop where
  operands : operandCount tokens = trace.length + held phase stack
  /-- Nothing has been read of the outermost level exactly at the beginning. -/
  outermost : stack = [] → (phase = .start ↔ tokens = [])
  /-- Nothing has been read of a group exactly behind the parenthesis that opens it. -/
  group : stack ≠ [] → (phase = .start ↔ tokens.getLast? = some .leftParenthesis)

namespace Accounted

section Steps

variable {tokens : List Token} {trace : List Operation} {phase phase' : Phase}
  {stack stack' : List Context} {token : Token}

/-- Behind any token but an opening parenthesis the level has been begun. -/
theorem begun (hoperands : operandCount (tokens ++ [token]) = trace.length + held phase stack)
    (hphase : phase ≠ .start) (htoken : token ≠ .leftParenthesis) :
    Accounted (tokens ++ [token]) trace phase stack := by
  refine ⟨hoperands, ?_, ?_⟩
  · simp [hphase]
  · simp [hphase, htoken]

/-- What a level holds waits in front of the group that is opened. -/
theorem opened (h : Accounted tokens trace phase stack) :
    Accounted (tokens ++ [.leftParenthesis]) trace .start (phase.context :: stack) := by
  have hstart : Phase.start.context.held = 0 := rfl
  have hclose : Token.leftParenthesis ≠ .rightParenthesis := nofun
  refine ⟨?_, by simp, by simp⟩
  rw [operandCount_concat rfl fun _ => hclose, h.operands, held_eq, held_eq, hstart, heldAt]
  omega

/-- An operator, as a sign or not, leaves the values where they are. -/
theorem operator (h : Accounted tokens trace phase stack) (op : Operator)
    (hphase : phase' ≠ .start) (hheld : phase'.context.held = phase.context.held) :
    Accounted (tokens ++ [op.token]) trace phase' stack := by
  obtain ⟨hliteral, hopen, hclose⟩ := op.not_operand_token
  refine begun ?_ hphase hopen
  rw [operandCount_concat hliteral fun _ => hclose, h.operands, held_eq, held_eq, hheld]

/-- A literal delivers an operand. -/
theorem literal (h : Accounted tokens trace phase stack) {l : Literal} {value : Value}
    {step : Step} (hstep : Delivery phase.context value stack step)
    (hnext : step.next = .running phase' stack') :
    Accounted (tokens ++ [.literal l]) (trace ++ step.operation.toList) phase' stack' := by
  have hlength := hstep.length_operation hnext
  obtain ⟨⟨left, rfl⟩, rfl⟩ := hstep.operand_of_next hnext
  have hoperand : (Phase.operand left).context.held = 1 := rfl
  refine begun ?_ nofun nofun
  rw [operandCount_literal, h.operands, held_eq, held_eq, hoperand, List.length_append, hlength]
  omega

/-- A group delivers the value that its level holds; an empty group delivers an operand. -/
theorem closed {context : Context} {value value' : Value} {step : Step}
    (h : Accounted tokens trace phase (context :: stack)) (hvalue : phase.value? = some value')
    (hstep : Delivery context value stack step) (hnext : step.next = .running phase' stack') :
    Accounted (tokens ++ [.rightParenthesis]) (trace ++ step.operation.toList) phase' stack' := by
  have hlength := hstep.length_operation hnext
  obtain ⟨⟨left, rfl⟩, rfl⟩ := hstep.operand_of_next hnext
  have hoperand : (Phase.operand left).context.held = 1 := rfl
  have hgroup := h.group nofun
  have hoperands := h.operands
  rw [held_eq, heldAt] at hoperands
  refine begun ?_ nofun nofun
  rw [held_eq, hoperand, List.length_append, hlength]
  -- an empty group holds nothing and is an operand itself; any other one holds its value
  rcases Phase.held_context hvalue with ⟨hstart, hheld⟩ | ⟨hstart, hheld⟩
  · rw [operandCount_close (hgroup.1 hstart)]
    omega
  · rw [operandCount_concat rfl fun hlast => absurd (hgroup.2 hlast) hstart]
    omega

/-- The account is kept by a step. -/
theorem step {outer : Terminator} {step : Step} (h : Accounted tokens trace phase stack)
    (hmove : Move outer phase stack token step) (hnext : step.next = .running phase' stack') :
    Accounted (tokens ++ [token]) (trace ++ step.operation.toList) phase' stack' := by
  have hsilent : trace ++ (none : Option Operation).toList = trace := List.append_nil trace
  cases hmove with
  | misplaced _ _ _ => cases hnext
  | unreadable _ _ _ => cases hnext
  | ended _ _ _ => cases hnext
  | opened _ _ =>
      cases hnext
      exact hsilent.symm ▸ h.opened
  | closed context rest hvalue => exact h.closed hvalue (deliver_delivery _ _ _) hnext
  | joint left op _ =>
      cases hnext
      exact hsilent.symm ▸ h.operator op nofun rfl
  | signed _ sign hsign =>
      cases hnext
      obtain ⟨op, hop⟩ := sign.exists_operator_token
      rw [← hop]
      exact hsilent.symm ▸ h.operator op nofun rfl
  | literal _ _ hvalue => exact h.literal (deliver_delivery _ _ _) hnext

end Steps

/-- A machine that runs has accounted for what it has read. -/
theorem of_running {outer : Terminator} {tokens : List Token} {phase : Phase} {stack : List Context}
    (h : (run outer (.running .start []) tokens).control = .running phase stack) :
    Accounted tokens (run outer (.running .start []) tokens).trace phase stack := by
  -- from the last token, in front of which the machine was running as well
  induction tokens using List.reverseRecOn generalizing phase stack with
  | nil =>
      cases h
      exact ⟨rfl, by simp, by simp⟩
  | append_singleton before token ih =>
      obtain ⟨phase', stack', hbefore, hnext⟩ := exists_running_of_concat h
      rw [(run_concat hbefore token).1]
      exact (ih hbefore).step (stepPhase_move outer phase' stack' token) hnext

/-- At the end of the outermost level one value is held, unless nothing has been read. -/
theorem length_trace {tokens : List Token} {trace : List Operation} {phase : Phase}
    {value : Value} (h : Accounted tokens trace phase []) (hvalue : phase.value? = some value) :
    (tokens = [] → trace.length = 0) ∧
      (tokens ≠ [] → trace.length + 1 = operandCount tokens) := by
  have hoperands := h.operands
  rw [held_eq, heldAt] at hoperands
  constructor
  · rintro rfl
    have hnone : operandCount [] = 0 := rfl
    omega
  · intro hne
    rcases Phase.held_context hvalue with ⟨hstart, -⟩ | ⟨-, hheld⟩
    · exact absurd ((h.outermost rfl).1 hstart) hne
    · omega

end Accounted

/-- Tokens that have a value in front of the end of the input leave the machine at the outermost
level, with that value, and the end of the input performs no operation. -/
theorem exists_running_of_result {words : List Token} {value : Value}
    (hwords : .endOfInput ∉ words)
    (h : (evaluateTokens (words ++ [.endOfInput])).result = .ok value) :
    ∃ phase, finalControl words = .running phase [] ∧ phase.value? = some value ∧
      (evaluateTokens (words ++ [.endOfInput])).trace =
        (run .endOfInput (.running .start []) words).trace := by
  have hdone := result_eq_ok_iff.1 h
  cases hcontrol : finalControl words with
  | failed e =>
      rw [finalControl_append, hcontrol] at hdone
      cases hdone
  | done early =>
      -- without the end of the input nothing has a value
      exact absurd (result_eq_ok_iff.2 hcontrol) (result_ne_ok_of_notMem hwords early)
  | running phase stack =>
      obtain ⟨htrace, hnext⟩ := run_concat hcontrol .endOfInput
      have hmove := stepPhase_move .endOfInput phase stack .endOfInput
      obtain ⟨rfl, hvalue, -, hsilent⟩ := hmove.ended_of_next (hnext.symm.trans hdone)
      rw [hsilent, Option.toList_none, List.append_nil] at htrace
      exact ⟨phase, rfl, hvalue, htrace⟩

end Evaluation

open Evaluation

/-- A trace is sound: every entry, also in front of an error, is an operation that has the recorded
result. And it is complete: where there is a value, the operations are one fewer than the literals
and the empty groups, and there is none where there are no tokens. -/
theorem trace_sound_and_complete :
    (∀ ts : List Token, ∀ o ∈ (evaluateTokens ts).trace,
      o.operator.apply o.left o.right = .ok o.result) ∧
    ∀ (w : List Token) (value : Value), .endOfInput ∉ w →
      (evaluateTokens (w ++ [.endOfInput])).result = .ok value →
      (w = [] → (evaluateTokens (w ++ [.endOfInput])).trace.length = 0) ∧
      (w ≠ [] → (evaluateTokens (w ++ [.endOfInput])).trace.length + 1 =
        literalCount w + emptyGroupCount w) := by
  constructor
  · intro ts o ho
    exact apply_of_mem_run ho
  · intro w value hend hvalue
    obtain ⟨phase, hrunning, hphase, htrace⟩ := exists_running_of_result hend hvalue
    rw [htrace]
    exact (Accounted.of_running hrunning).length_trace hphase

/-- In `(1h 30m) - () * -(2) +` the groups, one of them empty, are joined in two operations, behind
the sum inside the first group. In `1h 30m / 0` the sum is recorded in front of the quotient that is
refused. -/
theorem trace_sound_and_complete_in_groups :
    let w : List Token := [.leftParenthesis, .literal (.duration "1h"), .literal (.duration "30m"),
      .rightParenthesis, .minus, .leftParenthesis, .rightParenthesis, .star, .minus,
      .leftParenthesis, .literal (.integer "2"), .rightParenthesis, .plus]
    let refused : List Token := [.literal (.duration "1h"), .literal (.duration "30m"), .slash,
      .literal (.integer "0"), .endOfInput]
    .endOfInput ∉ w ∧
      (evaluateTokens (w ++ [.endOfInput])).result = .ok (.duration ⟨-10800000000000⟩) ∧
      w ≠ [] ∧ literalCount w = 3 ∧ emptyGroupCount w = 1 ∧
      (evaluateTokens (w ++ [.endOfInput])).trace.length + 1 =
        literalCount w + emptyGroupCount w ∧
      (evaluateTokens refused).result = .error (.evaluation .divisionByZero) ∧
      (evaluateTokens refused).trace.length = 1 ∧
      ∀ o ∈ (evaluateTokens refused).trace, o.operator.apply o.left o.right = .ok o.result := by
  intro w refused
  have hend : .endOfInput ∉ w := by decide
  have hne : w ≠ [] := nofun
  have hvalue : (evaluateTokens (w ++ [.endOfInput])).result =
      .ok (.duration ⟨-10800000000000⟩) := rfl
  obtain ⟨hsound, hcomplete⟩ := trace_sound_and_complete
  exact ⟨hend, hvalue, hne, rfl, rfl, (hcomplete w _ hend hvalue).2 hne, rfl, rfl,
    hsound refused⟩

end DurationCalculator
