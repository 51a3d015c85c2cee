import Mathlib.Data.List.Basic
import DurationCalculator.Proofs.Evaluation.Reading
import DurationCalculator.Proofs.Grammar.Meaning

/-!
# The machine computes the meaning of trees

Started anywhere, a run over the tokens of a tree performs the operations of the tree's meaning
and goes on with its value, or fails with its error (`effect_atom`, `effect_operand`,
`effect_sequence`, `effect_expression`). Together with the uniqueness of trees this makes the
evaluation of a token list the meaning of its only tree over unbounded integers; a token list
without a tree has no value (`evaluateTokens_eq_meaning`).
-/

set_option autoImplicit false

namespace DurationCalculator

namespace Evaluation

open Grammar

/-! ## Effects -/

/-- The operations of a run, and the control that it reaches. -/
abbrev Effect := List Operation × Control

/-- The effect of a run. -/
def effect (outer : Terminator) (control : Control) (tokens : List Token) : Effect :=
  ((run outer control tokens).trace, (run outer control tokens).control)

/-- An effect behind some operations. -/
def Effect.behind (trace : List Operation) (later : Effect) : Effect :=
  (trace ++ later.1, later.2)

/-- The effect of a step and the run that goes on from it. -/
def Step.effect (outer : Terminator) (step : Step) (rest : List Token) : Effect :=
  Effect.behind step.operation.toList (Evaluation.effect outer step.next rest)

/-- The effect of a computation that goes on with its value, or fails with its error. -/
def andThen (meaning : Meaning Value) (next : Value → Effect) : Effect :=
  match meaning.result with
  | .error e => (meaning.trace, .failed e)
  | .ok value => Effect.behind meaning.trace (next value)

theorem Effect.behind_nil (later : Effect) : Effect.behind [] later = later := rfl

/-- A computation in two parts goes on with the value of the second. -/
theorem andThen_bind (first : Meaning Value) (second : Value → Meaning Value)
    (next : Value → Effect) :
    andThen (first.bind second) next = andThen first fun value => andThen (second value) next := by
  rcases first with ⟨e | value, trace⟩
  · simp [andThen, Meaning.bind]
  · cases h : (second value).result <;>
      simp [andThen, Meaning.bind, Effect.behind, h]

section Effect

variable (outer : Terminator) (stack : List Context) (rest : List Token)

theorem effect_done (value : Value) :
    effect outer (.done value) rest = ([], .done value) := by
  cases rest <;> rfl

theorem effect_failed (e : EvaluationError) :
    effect outer (.failed e) rest = ([], .failed e) := by
  cases rest <;> rfl

theorem effect_cons (phase : Phase) (token : Token) :
    effect outer (.running phase stack) (token :: rest) =
      (stepPhase outer stack token phase).effect outer rest := rfl

theorem effect_fail (e : EvaluationError) :
    (Step.fail e).effect outer rest = ([], .failed e) :=
  effect_failed outer rest e

theorem effect_silent (next : Control) :
    (Step.silent next).effect outer rest = effect outer next rest := rfl

/-! ## Completed operands -/

/-- An operand behind an operator is joined. -/
theorem effect_deliver_joined (left : Value) (op : Operator) (value : Value) :
    (deliver ⟨some (left, op), false⟩ value stack).effect outer rest =
      andThen (checkedArithmetic.perform op left value) fun result =>
        effect outer (.running (.operand result) stack) rest := by
  have happly : checkedArithmetic.apply op left value = op.apply left value := rfl
  cases h : op.apply left value with
  | error e => simp [deliver, h, effect_fail, Arithmetic.perform, happly, andThen]
  | ok result => simp [deliver, h, Step.effect, Arithmetic.perform, happly, andThen]

/-- A signed operand is negated before it is joined. -/
theorem effect_deliver_signed (pending : Option (Value × Operator)) (sign : Sign)
    (value : Value) :
    (deliver ⟨pending, sign = .minus⟩ value stack).effect outer rest =
      andThen (.ofResult (checkedArithmetic.signed (some sign) value)) fun signed =>
        (deliver ⟨pending, false⟩ signed stack).effect outer rest := by
  cases sign with
  | plus => rfl
  | minus =>
      have hnegate : checkedArithmetic.negate value = value.negate := rfl
      cases h : value.negate with
      | error e =>
          simp [deliver, h, effect_fail, Arithmetic.signed, hnegate, andThen, Meaning.ofResult]
      | ok signed =>
          simp [deliver, h, Arithmetic.signed, hnegate, andThen, Meaning.ofResult,
            Effect.behind_nil]

end Effect

/-! ## Trees -/

/-- The phase in front of an operand that may have a sign. -/
def phaseOf : Option (Value × Operator) → Phase
  | none => .start
  | some (left, op) => .operator left op

theorem context_phaseOf (pending : Option (Value × Operator)) :
    (phaseOf pending).context = ⟨pending, false⟩ := by
  rcases pending with _ | ⟨left, op⟩ <;> rfl

/-- A sign in front of an operand is read. -/
theorem stepPhase_phaseOf_sign (outer : Terminator) (stack : List Context)
    (pending : Option (Value × Operator)) (sign : Sign) :
    stepPhase outer stack sign.token (phaseOf pending) =
      .silent (.running (.sign ⟨pending, sign = .minus⟩) stack) := by
  rcases pending with _ | ⟨left, op⟩
  · exact stepPhase_sign outer stack .start rfl sign
  · exact stepPhase_sign outer stack (.operator left (.first (.mk none (.group .empty))) op) rfl
      sign

mutual

/-- An atom is delivered to the context in which it stands. -/
theorem effect_atom (outer : Terminator) (atom : Atom) (phase : Phase) (stack : List Context)
    (rest : List Token) :
    effect outer (.running phase stack) (atom.tokens ++ rest) =
      andThen (atom.meaning checkedArithmetic) fun value =>
        (deliver phase.context value stack).effect outer rest := by
  match atom with
  | .literal l =>
      change effect outer (.running phase stack) (.literal l :: rest) =
        andThen (.ofResult l.value) _
      rw [effect_cons, stepPhase_literal]
      cases h : l.value with
      | error e => simp [readOperand, h, effect_fail, andThen, Meaning.ofResult]
      | ok value => simp [readOperand, h, andThen, Meaning.ofResult, Effect.behind_nil]
  | .group body =>
      -- inside the group its closing parenthesis is the terminator
      have hbody := effect_expression outer body (phase.context :: stack) rest
      calc effect outer (.running phase stack) ((Atom.group body).tokens ++ rest)
          = effect outer (.running phase stack)
              (.leftParenthesis :: (body.tokens ++ .rightParenthesis :: rest)) := by
            simp [Atom.tokens]
        _ = effect outer (.running .start (phase.context :: stack))
              (body.tokens ++ .rightParenthesis :: rest) := by
            rw [effect_cons, stepPhase_leftParenthesis, effect_silent]
        _ = _ := hbody

/-- An operand is delivered behind its sign. -/
theorem effect_operand (outer : Terminator) (operand : Operand)
    (pending : Option (Value × Operator)) (stack : List Context) (rest : List Token) :
    effect outer (.running (phaseOf pending) stack) (operand.tokens ++ rest) =
      andThen (operand.meaning checkedArithmetic) fun value =>
        (deliver ⟨pending, false⟩ value stack).effect outer rest := by
  match operand with
  | .mk none atom =>
      have hatom := effect_atom outer atom (phaseOf pending) stack rest
      rw [context_phaseOf] at hatom
      rw [Operand.meaning, andThen_bind]
      exact hatom
  | .mk (some sign) atom =>
      have hatom := effect_atom outer atom (.sign ⟨pending, sign = .minus⟩) stack rest
      rw [Operand.meaning, andThen_bind]
      simp only [← effect_deliver_signed]
      -- the sign is read first and waits for the value of the atom
      rw [Operand.tokens, signTokens, List.cons_append, List.nil_append, List.cons_append,
        effect_cons, stepPhase_phaseOf_sign, effect_silent]
      exact hatom

/-- A sequence is the value so far. -/
theorem effect_sequence (outer : Terminator) (s : Sequence) (stack : List Context)
    (rest : List Token) :
    effect outer (.running .start stack) (s.tokens ++ rest) =
      andThen (s.meaning checkedArithmetic) fun value =>
        effect outer (.running (.operand value) stack) rest := by
  match s with
  | .first operand => exact effect_operand outer operand none stack rest
  | .joined before op operand =>
      -- by induction the operands in front have become one value
      rw [Sequence.tokens, List.append_assoc, effect_sequence outer before, Sequence.meaning,
        andThen_bind]
      congr 1
      funext left
      rw [List.cons_append, effect_cons, stepPhase_operator, effect_silent, andThen_bind]
      simp only [← effect_deliver_joined]
      exact effect_operand outer operand (some (left, op)) stack rest
  | .adjacent before atom =>
      rw [Sequence.tokens, List.append_assoc, effect_sequence outer before, Sequence.meaning,
        andThen_bind]
      congr 1
      funext left
      -- an atom behind an operand is joined as if a plus stood in between
      rw [andThen_bind]
      simp only [← effect_deliver_joined]
      exact effect_atom outer atom (.operand left) stack rest

/-- An expression with its terminator ends its level. -/
theorem effect_expression (outer : Terminator) (e : Expression) (stack : List Context)
    (rest : List Token) :
    effect outer (.running .start stack)
        (e.tokens ++ (terminator outer stack).token :: rest) =
      andThen (e.meaning checkedArithmetic) fun value =>
        (close value stack).effect outer rest := by
  match e with
  | .empty =>
      have hclose : stepPhase outer stack (terminator outer stack).token .start =
          close (.duration Duration.zero) stack := stepPhase_terminator outer stack rfl
      rw [Expression.tokens, List.nil_append, effect_cons, hclose]
      rfl
  | .operands s =>
      rw [Expression.tokens, effect_sequence, Expression.meaning]
      congr 1
      funext value
      have hclose : stepPhase outer stack (terminator outer stack).token (.operand value) =
          close value stack := stepPhase_terminator outer stack rfl
      rw [effect_cons, hclose]
  | .dangling s op =>
      rw [Expression.tokens, List.append_assoc, effect_sequence, Expression.meaning]
      congr 1
      funext value
      have hclose : stepPhase outer stack (terminator outer stack).token (.operator value op) =
          close value stack := stepPhase_terminator outer stack rfl
      rw [List.singleton_append, effect_cons, stepPhase_operator, effect_silent, effect_cons,
        hclose]

end

/-- The result and the trace of the evaluation of an expression up to the end of the input. -/
theorem evaluateTokens_tokens (e : Expression) (rest : List Token) :
    (evaluateTokens (e.tokens ++ .endOfInput :: rest)).result =
        (e.meaning checkedArithmetic).result.mapError .evaluation ∧
      (evaluateTokens (e.tokens ++ .endOfInput :: rest)).trace =
        (e.meaning checkedArithmetic).trace := by
  -- at the outermost level the terminator is the end of the input
  have heffect := effect_expression .endOfInput e [] rest
  change effect .endOfInput (.running .start []) (e.tokens ++ .endOfInput :: rest) = _ at heffect
  obtain ⟨htrace, hcontrol⟩ := Prod.mk.inj heffect
  change (evaluateTokens (e.tokens ++ .endOfInput :: rest)).trace = _ at htrace
  change finalControl (e.tokens ++ .endOfInput :: rest) = _ at hcontrol
  obtain ⟨cursor, hresult⟩ := result_evaluateTokens (e.tokens ++ .endOfInput :: rest)
  rw [hresult, hcontrol, htrace]
  rcases e.meaning checkedArithmetic with ⟨err | value, trace⟩
  · exact ⟨rfl, rfl⟩
  · -- the end of the input halts the machine, whatever stands behind it
    simp only [close, effect_silent, effect_done, Effect.behind, List.append_nil]
    exact ⟨rfl, trivial⟩

/-- Tokens that have a value in front of the end of the input are those of a tree. -/
theorem exists_tree_of_result {words : List Token} {value : Value} (hwords : .endOfInput ∉ words)
    (h : (evaluateTokens (words ++ [.endOfInput])).result = .ok value) :
    ∃ e : Expression, e.tokens = words := by
  obtain ⟨e, rest, hsplit⟩ := exists_expression_of_done (result_eq_ok_iff.1 h)
  -- no word is the end of the input, so the tree takes all of them
  obtain ⟨rfl, -, -⟩ := (List.append_cons_inj_of_notMem hwords List.not_mem_nil).1 hsplit
  exact ⟨e, rfl⟩

end Evaluation

open Evaluation Grammar

/-- The evaluation of a token list agrees with its tree. A token list that some tree writes is
written by no other tree, and its evaluation has the result and the trace of the tree over
unbounded integers; a token list that no tree writes has no value. -/
theorem evaluateTokens_eq_meaning (w : List Token) (hw : .endOfInput ∉ w) :
    (∀ e : Expression, e.tokens = w →
      (∀ e' : Expression, e'.tokens = w → e' = e) ∧
      (evaluateTokens (w ++ [.endOfInput])).result.map Value.quantity =
        (e.meaning exactArithmetic).result.mapError .evaluation ∧
      (evaluateTokens (w ++ [.endOfInput])).trace.map (OperationOn.map Value.quantity) =
        (e.meaning exactArithmetic).trace) ∧
    ((∀ e : Expression, e.tokens ≠ w) →
      ∀ value, (evaluateTokens (w ++ [.endOfInput])).result ≠ .ok value) := by
  constructor
  · rintro e rfl
    obtain ⟨hresult, htrace⟩ := evaluateTokens_tokens e []
    have hexact := e.map_quantity_meaning
    refine ⟨fun e' h => Expression.tokens_injective h, ?_, ?_⟩
    · rw [hresult, ← hexact]
      rcases e.meaning checkedArithmetic with ⟨err | value, trace⟩ <;> rfl
    · rw [htrace, ← hexact]
      rfl
  · intro hnone value hvalue
    obtain ⟨e, rest, hsplit⟩ := exists_expression_of_done (result_eq_ok_iff.1 hvalue)
    -- the only end of the input is the last token
    rcases rest.eq_nil_or_concat with rfl | ⟨rest, last, rfl⟩
    · exact hnone e (List.append_cancel_right hsplit).symm
    · have hlast : w = e.tokens ++ .endOfInput :: rest := by
        have hsplit' : w ++ [Token.endOfInput] = (e.tokens ++ .endOfInput :: rest) ++ [last] := by
          simpa using hsplit
        exact (List.append_inj' hsplit' rfl).1
      exact hw (by simp [hlast])

/-- The tree of `-(1h 30m) * 2 +`, whose last operator joins nothing. -/
def signedGroup : Expression :=
  .dangling (.joined (.first (.mk (some .minus) (.group (.operands (.adjacent
    (.first (.mk none (.literal (.duration "1h")))) (.literal (.duration "30m")))))))
    .mul (.mk none (.literal (.integer "2")))) .add

/-- Ninety minutes are put together inside the group, then negated, then doubled; two signs that
stand alone have no tree and no value. -/
theorem evaluateTokens_signedGroup :
    (.endOfInput ∉ signedGroup.tokens ∧
      (evaluateTokens (signedGroup.tokens ++ [.endOfInput])).result.map Value.quantity =
        .ok ⟨.duration, -10800000000000⟩ ∧
      (evaluateTokens (signedGroup.tokens ++ [.endOfInput])).trace.map
          (OperationOn.map Value.quantity) =
        [⟨⟨.duration, 3600000000000⟩, .add, ⟨.duration, 1800000000000⟩,
            ⟨.duration, 5400000000000⟩⟩,
          ⟨⟨.duration, -5400000000000⟩, .mul, ⟨.integer, 2⟩, ⟨.duration, -10800000000000⟩⟩]) ∧
    ∀ value, (evaluateTokens [.plus, .plus, .endOfInput]).result ≠ .ok value := by
  have hmem : .endOfInput ∉ signedGroup.tokens := by decide
  obtain ⟨-, hresult, htrace⟩ :=
    (evaluateTokens_eq_meaning signedGroup.tokens hmem).1 signedGroup rfl
  have hnone : ∀ e : Expression, e.tokens ≠ [.plus, .plus] := by
    intro e he
    have hparse : parse [.plus, .plus] = some e := parse_eq_some_iff.2 he
    cases hparse
  exact ⟨⟨hmem, hresult.trans rfl, htrace.trans rfl⟩,
    (evaluateTokens_eq_meaning [.plus, .plus] (by decide)).2 hnone⟩

end DurationCalculator
