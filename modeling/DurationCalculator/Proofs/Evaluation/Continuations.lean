import DurationCalculator.Proofs.Evaluation.Agreement
import DurationCalculator.Proofs.Evaluation.Moves
import DurationCalculator.Proofs.Evaluation.Unread

/-!
# What follows an operand

A token list that ends in a literal or a closing parenthesis leaves the machine behind an operand,
at whatever depth, unless it has halted (`exists_operand_of_running`). The tokens that follow see
the value of the level and the groups around it, and nothing of how they came about. So two ways
to go on may be exchanged when they have one effect behind every operand
(`evaluateTokens_append_congr`).

An operator may be left out in front of a token that does the same behind the operator as behind
the operand: a plus in front of a literal or a group (`implicit_addition_eq_explicit`), and any
operator where a level ends (`dangling_operator_ignored`). Tokens that have a value and end in an
operand may be put in parentheses, whatever follows: operators group to the left
(`operators_group_left`).
-/

set_option autoImplicit false

namespace DurationCalculator

/-! ## Tokens around operands -/

namespace Token

/-- The token completes an operand. -/
def EndsOperand : Token → Prop
  | literal _ => True
  | rightParenthesis => True
  | _ => False

/-- The token begins an operand that has no sign. -/
def BeginsOperand : Token → Prop
  | literal _ => True
  | leftParenthesis => True
  | _ => False

/-- The token ends a level, if it stands at the right depth. -/
def EndsLevel : Token → Prop
  | rightParenthesis => True
  | endOfInput => True
  | _ => False

end Token

/-- The last token completes an operand. -/
def EndsInOperand (tokens : List Token) : Prop := ∃ last ∈ tokens.getLast?, last.EndsOperand

namespace Evaluation

open Grammar

/-! ## Behind an operand -/

section Steps

variable (outer : Terminator)

section Operand

variable {phase phase' : Phase} {stack stack' : List Context}

/-- A token that completes an operand leaves the machine behind it, unless it halts the machine. -/
theorem exists_operand_of_move {token : Token} {step : Step} (htoken : token.EndsOperand)
    (h : Move outer phase stack token step) (hnext : step.next = .running phase' stack') :
    ∃ left, phase' = .operand left := by
  cases h with
  | misplaced _ _ _ => cases hnext
  | unreadable _ _ _ => cases hnext
  | ended _ _ _ => cases hnext
  | opened _ _ => exact htoken.elim
  | joint left op _ => cases op <;> exact htoken.elim
  | signed _ sign _ => cases sign <;> exact htoken.elim
  | closed _ _ _ => exact ((deliver_delivery _ _ _).operand_of_next hnext).1
  | literal _ _ _ => exact ((deliver_delivery _ _ _).operand_of_next hnext).1

end Operand

/-- A running machine that has read tokens which end in an operand is behind an operand. -/
theorem exists_operand_of_running {control : Control} {tokens : List Token}
    (htokens : EndsInOperand tokens) {phase : Phase} {stack : List Context}
    (h : (run outer control tokens).control = .running phase stack) :
    ∃ left, phase = .operand left := by
  obtain ⟨last, hlast, hoperand⟩ := htokens
  obtain ⟨before, rfl⟩ := List.getLast?_eq_some_iff.1 hlast
  -- only the last token matters, and it has been read by a running machine
  obtain ⟨phase', stack', -, hnext⟩ := exists_running_of_concat h
  exact exists_operand_of_move outer hoperand (stepPhase_move outer phase' stack' last) hnext

variable (stack : List Context) (left : Value)

/-- What begins an operand is joined by a plus, whether the plus is written or not. -/
theorem stepPhase_add {token : Token} (htoken : token.BeginsOperand) :
    stepPhase outer stack token (.operator left .add) =
      stepPhase outer stack token (.operand left) := by
  cases token with
  | literal l =>
      rw [stepPhase_literal, stepPhase_literal]
      rfl
  | leftParenthesis =>
      rw [stepPhase_leftParenthesis, stepPhase_leftParenthesis]
      rfl
  | _ => exact htoken.elim

/-- What ends a level ends it or is refused, whether an operator stands in front of it or not. -/
theorem stepPhase_dangling {token : Token} (htoken : token.EndsLevel) (op : Operator) :
    stepPhase outer stack token (.operator left op) =
      stepPhase outer stack token (.operand left) := by
  by_cases hends : (terminator outer stack).token = token
  · have hoperator : (Phase.operator left op).value? = some left := rfl
    have hoperand : (Phase.operand left).value? = some left := rfl
    rw [← hends, stepPhase_terminator outer stack hoperator,
      stepPhase_terminator outer stack hoperand]
  · -- the end of another level is an error where an operand is required, whatever it is joined to
    have hop : token.operator? = none := by
      cases token <;> first | rfl | exact htoken.elim
    rw [stepPhase_of_operator?_eq_none outer stack hop (Or.inr hends),
      stepPhase_of_operator?_eq_none outer stack hop (Or.inr hends)]
    cases token <;> first | rfl | exact htoken.elim

end Steps

/-! ## Effects of continuations -/

section Effects

variable (outer : Terminator)

/-- The effect of two lists is that of the second where the run over the first has stopped. -/
theorem effect_append (control : Control) (xs ys : List Token) :
    effect outer control (xs ++ ys) =
      Effect.behind (run outer control xs).trace
        (effect outer (run outer control xs).control ys) := by
  simp only [effect, Effect.behind, trace_run_append, control_run_append]

/-- Behind an operand, an operator does nothing in front of a token that does not notice it. -/
theorem effect_operator_skipped {stack : List Context} {left : Value} {op : Operator}
    {token : Token} (h : stepPhase outer stack token (.operator left op) =
      stepPhase outer stack token (.operand left)) (rest : List Token) :
    effect outer (.running (.operand left) stack) (op.token :: token :: rest) =
      effect outer (.running (.operand left) stack) (token :: rest) := by
  rw [effect_cons, stepPhase_operator, effect_silent, effect_cons, h, effect_cons]

/-- Operands in parentheses have the effect that they have without them. -/
theorem effect_grouped (s : Sequence) (stack : List Context) (rest : List Token) :
    effect outer (.running .start stack)
        (.leftParenthesis :: (s.tokens ++ .rightParenthesis :: rest)) =
      effect outer (.running .start stack) (s.tokens ++ rest) := by
  have htokens : (Atom.group (.operands s)).tokens ++ rest =
      .leftParenthesis :: (s.tokens ++ .rightParenthesis :: rest) := by
    simp [Atom.tokens, Expression.tokens]
  -- a group that is the first operand of its level gives the level its value
  calc effect outer (.running .start stack)
        (.leftParenthesis :: (s.tokens ++ .rightParenthesis :: rest))
      = andThen ((Atom.group (.operands s)).meaning checkedArithmetic) fun value =>
          (deliver ⟨none, false⟩ value stack).effect outer rest := by
        rw [← htokens]
        exact effect_atom outer (.group (.operands s)) .start stack rest
    _ = andThen (s.meaning checkedArithmetic) fun value =>
          effect outer (.running (.operand value) stack) rest := by
        rw [Atom.meaning, Expression.meaning]
        rfl
    _ = effect outer (.running .start stack) (s.tokens ++ rest) :=
        (effect_sequence outer s stack rest).symm

end Effects

/-! ## Evaluations -/

/-- Evaluations of one effect are equal, unless they run out of tokens. -/
theorem evaluateTokens_eq_of_effect {ts us : List Token} (hend : .endOfInput ∈ ts)
    (h : effect .endOfInput (.running .start []) ts =
      effect .endOfInput (.running .start []) us) : evaluateTokens ts = evaluateTokens us := by
  obtain ⟨htrace, hcontrol⟩ := Prod.mk.inj h
  change finalControl ts = finalControl us at hcontrol
  have hresult (cursor cursor' : Nat) :
      (finalControl ts).result cursor ts.length = (finalControl us).result cursor' us.length := by
    rw [← hcontrol]
    exact Control.result_of_halted (halted_of_not_runsOut (not_runsOut_of_mem hend)) _ _ _ _
  simp only [evaluateTokens, evaluateUntil, List.drop_zero, Outcome.mk.injEq]
  exact ⟨hresult _ _, htrace⟩

/-- Behind tokens that end in an operand, continuations may be exchanged that have one effect behind
every operand. -/
theorem evaluateTokens_append_congr {xs ys zs : List Token} (hxs : EndsInOperand xs)
    (hend : .endOfInput ∈ ys)
    (h : ∀ left stack, effect .endOfInput (.running (.operand left) stack) ys =
      effect .endOfInput (.running (.operand left) stack) zs) :
    evaluateTokens (xs ++ ys) = evaluateTokens (xs ++ zs) := by
  apply evaluateTokens_eq_of_effect (List.mem_append_right xs hend)
  rw [effect_append, effect_append]
  congr 1
  cases hcontrol : (run .endOfInput (.running .start []) xs).control with
  | running phase stack =>
      obtain ⟨left, rfl⟩ := exists_operand_of_running .endOfInput hxs hcontrol
      exact h left stack
  | done value => rw [effect_done, effect_done]
  | failed e => rw [effect_failed, effect_failed]

/-- An expression that ends in an operand is a sequence of operands. -/
theorem exists_sequence_of_endsInOperand {e : Expression} (h : EndsInOperand e.tokens) :
    ∃ s : Sequence, s.tokens = e.tokens := by
  obtain ⟨last, hlast, hoperand⟩ := h
  cases e with
  | empty => cases hlast
  | operands s => exact ⟨s, rfl⟩
  | dangling s op =>
      rw [Expression.tokens, List.getLast?_concat] at hlast
      cases hlast
      cases op <;> exact hoperand.elim

end Evaluation

open Evaluation Grammar

/-- Operators group to the left: tokens that have a value and end in an operand may be put in
parentheses in front of any rest that holds the end of the input. -/
theorem operators_group_left {xs ys : List Token} {value : Value} (hxs : .endOfInput ∉ xs)
    (hoperand : EndsInOperand xs)
    (hvalue : (evaluateTokens (xs ++ [.endOfInput])).result = .ok value)
    (hys : .endOfInput ∈ ys) :
    evaluateTokens (xs ++ ys) =
      evaluateTokens (.leftParenthesis :: (xs ++ .rightParenthesis :: ys)) := by
  obtain ⟨e, rfl⟩ := exists_tree_of_result hxs hvalue
  obtain ⟨s, hs⟩ := exists_sequence_of_endsInOperand hoperand
  rw [← hs]
  apply evaluateTokens_eq_of_effect (List.mem_append_right s.tokens hys)
  exact (effect_grouped .endOfInput s [] ys).symm

/-- `2h - 1h * (3)` may be put in parentheses in front of ` / 0`, which is then refused behind the
same three hours. -/
theorem operators_group_left_in_front_of_quotient :
    let xs : List Token := [.literal (.duration "2h"), .minus, .literal (.duration "1h"), .star,
      .leftParenthesis, .literal (.integer "3"), .rightParenthesis]
    let ys : List Token := [.slash, .literal (.integer "0"), .endOfInput]
    .endOfInput ∉ xs ∧ EndsInOperand xs ∧
      (evaluateTokens (xs ++ [.endOfInput])).result = .ok (.duration ⟨10800000000000⟩) ∧
      .endOfInput ∈ ys ∧
      (evaluateTokens (xs ++ ys)).result = .error (.evaluation .divisionByZero) ∧
      evaluateTokens (xs ++ ys) =
        evaluateTokens (.leftParenthesis :: (xs ++ .rightParenthesis :: ys)) := by
  intro xs ys
  have hxs : .endOfInput ∉ xs := by decide
  have hoperand : EndsInOperand xs := ⟨.rightParenthesis, rfl, trivial⟩
  have hvalue : (evaluateTokens (xs ++ [.endOfInput])).result =
      .ok (.duration ⟨10800000000000⟩) := rfl
  have hys : .endOfInput ∈ ys := by decide
  exact ⟨hxs, hoperand, hvalue, hys, rfl, operators_group_left hxs hoperand hvalue hys⟩

/-- Behind an operator that joins nothing, parentheses change the value: `1h - 30m` is half an hour,
and `(1h -) 30m` is an hour and a half. -/
example :
    (evaluateTokens [.literal (.duration "1h"), .minus, .literal (.duration "30m"),
      .endOfInput]).result = .ok (.duration ⟨1800000000000⟩) ∧
    (evaluateTokens [.leftParenthesis, .literal (.duration "1h"), .minus, .rightParenthesis,
      .literal (.duration "30m"), .endOfInput]).result = .ok (.duration ⟨5400000000000⟩) :=
  ⟨rfl, rfl⟩

/-- A plus may be left out between an operand and what begins another one without a sign, at every
depth and whether the rest has a value or not. -/
theorem implicit_addition_eq_explicit {xs ys : List Token} (hxs : EndsInOperand xs)
    (hys : ∃ first ∈ ys.head?, first.BeginsOperand) (hend : .endOfInput ∈ ys) :
    evaluateTokens (xs ++ ys) = evaluateTokens (xs ++ .plus :: ys) := by
  obtain ⟨first, hfirst, hbegins⟩ := hys
  obtain ⟨rest, rfl⟩ := List.head?_eq_some_iff.1 hfirst
  apply evaluateTokens_append_congr hxs hend
  intro left stack
  have hsame := stepPhase_add .endOfInput stack left hbegins
  exact (effect_operator_skipped .endOfInput hsame rest).symm

/-- In `2h - ((1h * 2) 30m * 1h)` the plus is left out behind a group inside a group, and a product
that is refused follows. -/
theorem implicit_addition_eq_explicit_in_group :
    let xs : List Token := [.literal (.duration "2h"), .minus, .leftParenthesis, .leftParenthesis,
      .literal (.duration "1h"), .star, .literal (.integer "2"), .rightParenthesis]
    let ys : List Token := [.literal (.duration "30m"), .star, .literal (.duration "1h"),
      .rightParenthesis, .endOfInput]
    EndsInOperand xs ∧ (∃ first ∈ ys.head?, first.BeginsOperand) ∧ .endOfInput ∈ ys ∧
      (evaluateTokens (xs ++ ys)).result =
        .error (.evaluation (.unsupportedOperandTypes .mul .duration .duration)) ∧
      (evaluateTokens (xs ++ ys)).trace.length = 2 ∧
      evaluateTokens (xs ++ ys) = evaluateTokens (xs ++ .plus :: ys) := by
  intro xs ys
  have hxs : EndsInOperand xs := ⟨.rightParenthesis, rfl, trivial⟩
  have hys : ∃ first ∈ ys.head?, first.BeginsOperand :=
    ⟨.literal (.duration "30m"), rfl, trivial⟩
  have hend : .endOfInput ∈ ys := by decide
  exact ⟨hxs, hys, hend, rfl, rfl, implicit_addition_eq_explicit hxs hys hend⟩

/-- An operator between an operand and the end of a level is ignored, at every depth. Where the end
is that of another level, it is refused with the operator as without it. -/
theorem dangling_operator_ignored {xs ys : List Token} (hxs : EndsInOperand xs)
    (hys : ∃ first ∈ ys.head?, first.EndsLevel) (hend : .endOfInput ∈ ys) (op : Operator) :
    evaluateTokens (xs ++ op.token :: ys) = evaluateTokens (xs ++ ys) := by
  obtain ⟨first, hfirst, hends⟩ := hys
  obtain ⟨rest, rfl⟩ := List.head?_eq_some_iff.1 hfirst
  symm
  apply evaluateTokens_append_congr hxs hend
  intro left stack
  have hsame := stepPhase_dangling .endOfInput stack left hends op
  exact (effect_operator_skipped .endOfInput hsame rest).symm

/-- In `(1h 30m *))` the star is ignored, and the second parenthesis is refused. In `(1h 30m *`
the end of the input is refused, which does not end the group. -/
theorem dangling_operator_ignored_in_group :
    let xs : List Token := [.leftParenthesis, .literal (.duration "1h"), .literal (.duration "30m")]
    let closed : List Token := [.rightParenthesis, .rightParenthesis, .endOfInput]
    let unclosed : List Token := [.endOfInput]
    EndsInOperand xs ∧
      ((∃ first ∈ closed.head?, first.EndsLevel) ∧ .endOfInput ∈ closed ∧
        (evaluateTokens (xs ++ closed)).result =
          .error (.evaluation .unexpectedClosingParenthesis) ∧
        evaluateTokens (xs ++ .star :: closed) = evaluateTokens (xs ++ closed)) ∧
      (∃ first ∈ unclosed.head?, first.EndsLevel) ∧ .endOfInput ∈ unclosed ∧
        (evaluateTokens (xs ++ unclosed)).result = .error (.evaluation .unexpectedEndOfInput) ∧
        evaluateTokens (xs ++ .star :: unclosed) = evaluateTokens (xs ++ unclosed) := by
  intro xs closed unclosed
  have hxs : EndsInOperand xs := ⟨.literal (.duration "30m"), rfl, trivial⟩
  have hclosed : ∃ first ∈ closed.head?, first.EndsLevel := ⟨.rightParenthesis, rfl, trivial⟩
  have hunclosed : ∃ first ∈ unclosed.head?, first.EndsLevel := ⟨.endOfInput, rfl, trivial⟩
  have hend : .endOfInput ∈ closed := by decide
  have hend' : .endOfInput ∈ unclosed := by decide
  exact ⟨hxs, ⟨hclosed, hend, rfl, dangling_operator_ignored hxs hclosed hend .mul⟩, hunclosed,
    hend', rfl, dangling_operator_ignored hxs hunclosed hend' .mul⟩

end DurationCalculator
