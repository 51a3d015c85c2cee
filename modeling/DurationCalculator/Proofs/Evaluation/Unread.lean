import DurationCalculator.Calculation
import DurationCalculator.Proofs.Evaluation.Misplaced
import DurationCalculator.Proofs.Token.Acceptance

/-!
# Unread tokens

A machine that has halted reads no further, so what stands behind the tokens that were read never
matters; a machine that still runs has read every token (`run_append_of_halted`,
`consumed_of_running`). The end of the input always halts it: at the outermost level it is the
terminator, and inside a group or behind a sign it is refused. So an evaluation wants a token
beyond the last one only if no token is the end of the input, and a scanned expression, whose last
token is the end, always has enough of them (`evaluateTokens_append`).
-/

set_option autoImplicit false

namespace DurationCalculator

namespace Evaluation

/-! ## Runs -/

section Run

variable (outer : Terminator)

/-- A machine that has halted ignores the tokens behind those it has read. -/
theorem run_append_of_halted {control : Control} {xs : List Token}
    (h : ∀ phase stack, (run outer control xs).control ≠ .running phase stack)
    (ys : List Token) : run outer control (xs ++ ys) = run outer control xs := by
  induction xs generalizing control with
  | nil =>
      rw [run_nil] at h ⊢
      cases control with
      | running phase stack => exact absurd rfl (h phase stack)
      | done value => cases ys <;> rfl
      | failed e => cases ys <;> rfl
  | cons x xs ih =>
      cases control with
      | running phase stack =>
          have hlater := @ih (stepPhase outer stack x phase).next h
          simp only [List.cons_append, run, hlater]
      | done value => rfl
      | failed e => rfl

/-- A machine that still runs has read every token. -/
theorem consumed_of_running {control : Control} {tokens : List Token} {phase : Phase}
    {stack : List Context} (h : (run outer control tokens).control = .running phase stack) :
    (run outer control tokens).consumed = tokens.length := by
  induction tokens generalizing control with
  | nil =>
      rw [run_nil]
      rfl
  | cons token rest ih =>
      cases control with
      | running phase' stack' =>
          have hlater := @ih (stepPhase outer stack' token phase').next h
          simp only [run, hlater, List.length_cons]
      | done value => cases h
      | failed e => cases h

end Run

/-! ## Evaluations -/

section Evaluation

variable {ts : List Token}

theorem halted_of_not_runsOut (h : ¬ RunsOut ts) (phase : Phase) (stack : List Context) :
    finalControl ts ≠ .running phase stack := by
  intro hrun
  exact h (runsOut_iff.2 ⟨phase, stack, hrun⟩)

/-- Where a machine has halted does not matter to its result. -/
theorem Control.result_of_halted {control : Control}
    (h : ∀ phase stack, control ≠ .running phase stack) (cursor cursor' length length' : Nat) :
    control.result cursor length = control.result cursor' length' := by
  cases control with
  | running phase stack => exact absurd rfl (h phase stack)
  | done value => rfl
  | failed e => rfl

/-- An evaluation that does not run out of tokens ignores those behind. -/
theorem evaluateTokens_append_of_not_runsOut (h : ¬ RunsOut ts) (us : List Token) :
    evaluateTokens (ts ++ us) = evaluateTokens ts := by
  have hhalted := halted_of_not_runsOut h
  have hrun := run_append_of_halted .endOfInput hhalted us
  simp only [evaluateTokens, evaluateUntil, List.drop_zero, hrun]
  exact congrArg (Outcome.mk · _) (Control.result_of_halted hhalted _ _ _ _)

/-- An evaluation that runs out of tokens stands behind the last one. -/
theorem result_of_runsOut (h : RunsOut ts) :
    (evaluateTokens ts).result = .error (.cursorOutOfRange ts.length ts.length) := by
  obtain ⟨phase, stack, hrun⟩ := runsOut_iff.1 h
  have hconsumed := consumed_of_running .endOfInput hrun
  change (run .endOfInput (.running .start []) ts).control = _ at hrun
  simp [evaluateTokens, evaluateUntil, hrun, hconsumed, Control.result]

/-- More tokens can only add operations. -/
theorem trace_prefix_append (ts us : List Token) :
    (evaluateTokens ts).trace <+: (evaluateTokens (ts ++ us)).trace := by
  change (run .endOfInput (.running .start []) ts).trace <+:
    (run .endOfInput (.running .start []) (ts ++ us)).trace
  rw [trace_run_append]
  exact List.prefix_append _ _

/-- The end of the input always halts the machine. -/
theorem not_runsOut_of_mem (h : .endOfInput ∈ ts) : ¬ RunsOut ts := by
  intro hrunsOut
  obtain ⟨phase, stack, hrun⟩ := runsOut_iff.1 hrunsOut
  obtain ⟨position, hread, -⟩ := readFrom_of_running follows_start hrun
  exact Grammar.endOfInput_notMem_of_readFrom hread h

/-- Only the end of the input ends an evaluation with a value. -/
theorem result_ne_ok_of_notMem (h : .endOfInput ∉ ts) (value : Value) :
    (evaluateTokens ts).result ≠ .ok value := by
  intro hvalue
  obtain ⟨e, rest, rfl⟩ := exists_expression_of_done (result_eq_ok_iff.1 hvalue)
  exact h (by simp)

/-- Only the end of the input is reported as an unexpected end. -/
theorem result_ne_unexpectedEndOfInput_of_notMem (h : .endOfInput ∉ ts) :
    (evaluateTokens ts).result ≠ .error (.evaluation .unexpectedEndOfInput) := by
  intro herror
  have hgrammatical : EvaluationError.unexpectedEndOfInput.Grammatical := trivial
  obtain ⟨before, token, rest, rfl, -, -, -, -, htoken⟩ :=
    exists_hopeless_of_finalControl hgrammatical (result_eq_evaluation_iff.1 herror)
  have hend : token = .endOfInput := by
    cases token with
    | endOfInput => rfl
    | _ => simp [Token.misplaced?] at htoken
  exact h (by simp [hend])

end Evaluation

end Evaluation

open Evaluation

/-- A scanned expression never runs out of tokens. -/
theorem not_cursorOutOfRange_of_evaluate (source : String) (position length : Nat) :
    (evaluate source).result ≠ .error (.cursorOutOfRange position length) := by
  unfold evaluate
  cases hscan : scan source with
  | error e => nofun
  | ok tokens =>
      obtain ⟨words, rfl, -⟩ := scan_eq_ok_iff.1 hscan
      intro hresult
      exact not_runsOut_of_mem (by simp) ⟨position, length, hresult⟩

/-- Tokens behind those that an evaluation has read change nothing, and where it runs out of tokens
it wants the one behind the last. With the end of the input among the tokens it never runs out;
without it, there is neither a value nor an unexpected end. So no expression runs out of tokens. -/
theorem evaluateTokens_append (ts us : List Token) :
    (¬ RunsOut ts → evaluateTokens (ts ++ us) = evaluateTokens ts) ∧
    (RunsOut ts →
      (evaluateTokens ts).result = .error (.cursorOutOfRange ts.length ts.length) ∧
      (evaluateTokens ts).trace <+: (evaluateTokens (ts ++ us)).trace) ∧
    (.endOfInput ∈ ts → ¬ RunsOut ts) ∧
    (.endOfInput ∉ ts →
      (∀ value, (evaluateTokens ts).result ≠ .ok value) ∧
      (evaluateTokens ts).result ≠ .error (.evaluation .unexpectedEndOfInput)) ∧
    ∀ source position length,
      (evaluate source).result ≠ .error (.cursorOutOfRange position length) := by
  refine ⟨?_, ?_, not_runsOut_of_mem, ?_, not_cursorOutOfRange_of_evaluate⟩
  · intro hhalts
    exact evaluateTokens_append_of_not_runsOut hhalts us
  · intro hrunsOut
    exact ⟨result_of_runsOut hrunsOut, trace_prefix_append ts us⟩
  · intro hend
    exact ⟨result_ne_ok_of_notMem hend, result_ne_unexpectedEndOfInput_of_notMem hend⟩

/-- In `(1h + 2h` the group runs out of tokens once the sum is known, and the trace of the closed
group starts with that sum. Behind a `)` too many nothing is read. -/
theorem evaluateTokens_append_unclosed :
    let unclosed : List Token := [.leftParenthesis, .literal (.duration "1h"), .plus,
      .literal (.duration "2h")]
    let stray : List Token := [.literal (.duration "1h"), .rightParenthesis]
    let rest : List Token := [.rightParenthesis, .endOfInput]
    (RunsOut unclosed ∧ (evaluateTokens unclosed).result = .error (.cursorOutOfRange 4 4) ∧
      (evaluateTokens unclosed).trace <+: (evaluateTokens (unclosed ++ rest)).trace) ∧
    (¬ RunsOut stray ∧ evaluateTokens (stray ++ rest) = evaluateTokens stray) ∧
    (.endOfInput ∈ unclosed ++ rest ∧ ¬ RunsOut (unclosed ++ rest)) ∧
    .endOfInput ∉ stray ∧
      (evaluateTokens stray).result ≠ .error (.evaluation .unexpectedEndOfInput) := by
  intro unclosed stray rest
  have hunclosed : RunsOut unclosed := ⟨4, 4, rfl⟩
  have hstray : ¬ RunsOut stray := by
    rintro ⟨position, length, hresult⟩
    cases hresult
  have hclosed : .endOfInput ∈ unclosed ++ rest := by decide
  have hopen : .endOfInput ∉ stray := by decide
  obtain ⟨-, hout, -⟩ := evaluateTokens_append unclosed rest
  obtain ⟨hhalts, -, -, hnoEnd, -⟩ := evaluateTokens_append stray rest
  obtain ⟨-, -, hend, -⟩ := evaluateTokens_append (unclosed ++ rest) []
  exact ⟨⟨hunclosed, hout hunclosed⟩, ⟨hstray, hhalts hstray⟩, ⟨hclosed, hend hclosed⟩, hopen,
    (hnoEnd hopen).2⟩

end DurationCalculator
