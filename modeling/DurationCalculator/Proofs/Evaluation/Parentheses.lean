import Mathlib.Data.List.Induction
import DurationCalculator.Proofs.Evaluation.Moves
import DurationCalculator.Proofs.Evaluation.Unread

/-!
# Where a level ends

The machine keeps one context for each parenthesis that is open, reads no closing parenthesis that
has no opening one, and never goes on behind the end of the input (`Enclosed`). So a level that
has a value ends at the first of its terminators that stands outside all groups: a group at the
parenthesis that belongs to the one in front of it, the outermost level at the first end of the
input (`evaluateUntil_ends_at_terminator`).

A group inside an evaluation is an evaluation of its own. The levels around it do not matter
before it ends (`run_group`), and then the machine goes on directly behind the matching
parenthesis, where the value of the group is delivered to the level that has opened it
(`control_behind_group`).
-/

set_option autoImplicit false

namespace DurationCalculator

/-! ## Parentheses that belong together -/

/-- The tokens leave `depth` of their opening parentheses open: no closing parenthesis is without
an opening one in front of it, and in all there are `depth` fewer of them. -/
structure Unclosed (depth : Nat) (tokens : List Token) : Prop where
  prefixes : ∀ before, before <+: tokens →
    before.count .rightParenthesis ≤ before.count .leftParenthesis
  totals : tokens.count .leftParenthesis = tokens.count .rightParenthesis + depth

/-- Every parenthesis has its counterpart. -/
def Balanced (tokens : List Token) : Prop := Unclosed 0 tokens

/-- The parentheses at two places belong together: what stands between them is balanced. -/
structure Encloses (tokens : List Token) (opening closing : Nat) : Prop where
  order : opening < closing
  opens : tokens[opening]? = some .leftParenthesis
  closes : tokens[closing]? = some .rightParenthesis
  inside : Balanced (tokens.extract (opening + 1) closing)

namespace Unclosed

theorem nil : Unclosed 0 [] := by
  refine ⟨?_, rfl⟩
  intro before hbefore
  rw [List.prefix_nil.1 hbefore]
  exact Nat.le_refl _

/-- One more token leaves as many open as the totals say. -/
theorem concat {depth depth' : Nat} {tokens : List Token} {token : Token}
    (h : Unclosed depth tokens)
    (htotals : (tokens ++ [token]).count .leftParenthesis =
      (tokens ++ [token]).count .rightParenthesis + depth') :
    Unclosed depth' (tokens ++ [token]) := by
  refine ⟨?_, htotals⟩
  intro before hbefore
  rcases List.prefix_concat_iff.1 hbefore with rfl | hbefore
  · omega
  · exact h.prefixes before hbefore

end Unclosed

/-- Balanced tokens with a closing parenthesis behind them do not begin balanced ones. -/
theorem Balanced.not_prefix {tokens between : List Token} (h : Balanced tokens)
    (hbetween : Balanced between) : ¬ between ++ [.rightParenthesis] <+: tokens := by
  intro hprefix
  -- the prefix would close one parenthesis more than it opens
  have hexcess := h.prefixes _ hprefix
  have htotals := hbetween.totals
  have hopening : (between ++ [Token.rightParenthesis]).count .leftParenthesis =
      between.count .leftParenthesis := by simp
  have hclosing : (between ++ [Token.rightParenthesis]).count .rightParenthesis =
      between.count .rightParenthesis + 1 := by simp
  omega

section Places

variable {tokens before rest : List Token} {start : Nat} {token : Token}

/-- The tokens from a place on, as a part of the list and the token behind it. -/
theorem getElem?_of_drop (h : tokens.drop start = before ++ token :: rest) :
    tokens[start + before.length]? = some token := by
  rw [← List.getElem?_drop, h, List.getElem?_append_right (Nat.le_refl _), Nat.sub_self]
  rfl

theorem extract_of_drop (h : tokens.drop start = before ++ token :: rest) :
    tokens.extract start (start + before.length) = before := by
  rw [List.extract_eq_take_drop, h, Nat.add_sub_cancel_left, List.take_left]

theorem take_of_drop (h : tokens.drop start = before ++ token :: rest) :
    tokens.take (start + before.length + 1) = tokens.take start ++ (before ++ [token]) := by
  rw [Nat.add_assoc, List.take_add, h, List.take_length_add_append]
  rfl

end Places

/-- An opening parenthesis belongs to at most one closing one. -/
theorem Encloses.unique {tokens : List Token} {opening closing closing' : Nat}
    (h : Encloses tokens opening closing) (h' : Encloses tokens opening closing') :
    closing = closing' := by
  -- of two, the earlier one would be one too many in front of the later one
  have hle : ∀ {first second : Nat}, Encloses tokens opening first →
      Encloses tokens opening second → second ≤ first := by
    intro first second hfirst hsecond
    by_contra hlt
    rw [Nat.not_le] at hlt
    obtain ⟨d, hd⟩ : ∃ d, first = opening + 1 + d := ⟨first - (opening + 1), by
      have horder := hfirst.order
      omega⟩
    refine hsecond.inside.not_prefix hfirst.inside ?_
    have hnext : (tokens.drop (opening + 1))[d]? = some .rightParenthesis := by
      rw [List.getElem?_drop, ← hd]
      exact hfirst.closes
    have htake : tokens.extract (opening + 1) first ++ [.rightParenthesis] =
        (tokens.drop (opening + 1)).take (d + 1) := by
      rw [List.extract_eq_take_drop, List.take_add_one, hnext, hd, Nat.add_sub_cancel_left]
      rfl
    rw [htake, List.extract_eq_take_drop]
    exact List.take_prefix_take_left (by omega)
  exact Nat.le_antisymm (hle h' h) (hle h h')

namespace Evaluation

/-! ## What a machine has read -/

/-- The tokens that a machine has read which runs inside `depth` groups. -/
structure Enclosed (depth : Nat) (tokens : List Token) : Prop where
  unclosed : Unclosed depth tokens
  unended : .endOfInput ∉ tokens

namespace Enclosed

section Steps

variable {outer : Terminator} {tokens : List Token} {token : Token} {phase phase' : Phase}
  {stack stack' : List Context}

theorem concat {depth depth' : Nat} (h : Enclosed depth tokens) (hend : token ≠ .endOfInput)
    (htotals : (tokens ++ [token]).count .leftParenthesis =
      (tokens ++ [token]).count .rightParenthesis + depth') :
    Enclosed depth' (tokens ++ [token]) := by
  refine ⟨h.unclosed.concat htotals, ?_⟩
  intro hmem
  rcases List.mem_append.1 hmem with hmem | hmem
  · exact h.unended hmem
  · exact hend (List.mem_singleton.1 hmem).symm

/-- A token that is no parenthesis leaves the depth as it is. -/
theorem other {depth : Nat} (h : Enclosed depth tokens) (hend : token ≠ .endOfInput)
    (hopen : token ≠ .leftParenthesis) (hclose : token ≠ .rightParenthesis) :
    Enclosed depth (tokens ++ [token]) := by
  refine h.concat hend ?_
  have htotals := h.unclosed.totals
  simp only [List.count_append, List.count_singleton, beq_iff_eq, if_neg hopen, if_neg hclose]
  omega

theorem operator {depth : Nat} (h : Enclosed depth tokens) (op : Operator) :
    Enclosed depth (tokens ++ [op.token]) := by
  cases op <;> exact h.other nofun nofun nofun

/-- What one step keeps. -/
theorem step {step : Step} (h : Enclosed stack.length tokens)
    (hmove : Move outer phase stack token step) (hnext : step.next = .running phase' stack') :
    Enclosed stack'.length (tokens ++ [token]) := by
  have htotals := h.unclosed.totals
  -- the stack grows with an opening parenthesis and shrinks with a closing one, and only then
  cases hmove with
  | misplaced _ _ _ => cases hnext
  | unreadable _ _ _ => cases hnext
  | ended _ _ _ => cases hnext
  | opened _ _ =>
      cases hnext
      refine h.concat nofun ?_
      simp
      omega
  | closed context rest _ =>
      obtain ⟨-, rfl⟩ := (deliver_delivery _ _ _).operand_of_next hnext
      refine h.concat nofun ?_
      simp at htotals ⊢
      omega
  | joint left op _ =>
      cases hnext
      exact h.operator op
  | signed _ sign _ =>
      cases hnext
      cases sign <;> exact h.other nofun nofun nofun
  | literal _ _ _ =>
      obtain ⟨-, rfl⟩ := (deliver_delivery _ _ _).operand_of_next hnext
      exact h.other nofun nofun nofun

end Steps

/-- A machine that runs has opened the groups that it is inside of. -/
theorem of_running {outer : Terminator} {tokens : List Token} {phase : Phase} {stack : List Context}
    (h : (run outer (.running .start []) tokens).control = .running phase stack) :
    Enclosed stack.length tokens := by
  -- from the last token, in front of which the machine was running as well
  induction tokens using List.reverseRecOn generalizing phase stack with
  | nil =>
      cases h
      exact ⟨.nil, by simp⟩
  | append_singleton before token ih =>
      obtain ⟨phase', stack', hbefore, hnext⟩ := exists_running_of_concat h
      exact (ih hbefore).step (stepPhase_move outer phase' stack' token) hnext

end Enclosed

/-- A result is that of a machine that is done. -/
theorem Control.result_eq_ok_iff {control : Control} {cursor length : Nat} {value : Value} :
    control.result cursor length = .ok value ↔ control = .done value := by
  cases control <;> simp [Control.result]

/-- A level that has a value has read balanced tokens and the terminator behind them, and nothing of
what follows. -/
theorem exists_balanced_of_done {outer : Terminator} {tokens : List Token} {value : Value}
    (h : (run outer (.running .start []) tokens).control = .done value) :
    ∃ before rest, tokens = before ++ outer.token :: rest ∧ .endOfInput ∉ before ∧
      Balanced before ∧ ∀ rest,
        (run outer (.running .start []) (before ++ outer.token :: rest)).consumed =
            before.length + 1 ∧
          (run outer (.running .start []) (before ++ outer.token :: rest)).control =
            .done value := by
  obtain ⟨before, token, rest, phase, stack, rfl, hbefore, hlast⟩ := exists_last_step h nofun
  -- only the terminator of the outermost level ends the evaluation with a value
  have hmove := stepPhase_move outer phase stack token
  obtain ⟨rfl, -, rfl, -⟩ := hmove.ended_of_next hlast
  obtain ⟨hunclosed, hunended⟩ := Enclosed.of_running hbefore
  refine ⟨before, rest, rfl, hunended, hunclosed, ?_⟩
  intro rest'
  have hhalted : (run outer (.done value) rest').consumed = 0 ∧
      (run outer (.done value) rest').control = .done value := by
    cases rest' <;> exact ⟨rfl, rfl⟩
  rw [consumed_run_append, control_run_append, hbefore, consumed_of_running outer hbefore, run,
    hlast, hhalted.1, hhalted.2]
  exact ⟨rfl, rfl⟩

/-! ## Groups -/

/-- A step inside a group, as the levels around it see it: where the group ends, its value is
delivered. -/
def Step.inside (context : Context) (around : List Context) (step : Step) : Step :=
  match step.next with
  | .running phase stack => ⟨step.operation, .running phase (stack ++ context :: around)⟩
  | .done value => deliver context value around
  | .failed e => ⟨step.operation, .failed e⟩

section Inside

variable (outer : Terminator) (context : Context) (around : List Context)

theorem deliver_inside (inner : Context) (value : Value) (stack : List Context) :
    deliver inner value (stack ++ context :: around) =
      (deliver inner value stack).inside context around := by
  unfold deliver
  split
  · rfl
  · split
    · rfl
    · split <;> rfl

/-- The end of the group itself delivers its value. -/
theorem close_inside (value : Value) (stack : List Context) :
    close value (stack ++ context :: around) = (close value stack).inside context around := by
  cases stack with
  | nil => rfl
  | cons inner rest => exact deliver_inside context around inner value rest

theorem readOperand_inside (inner : Context) (stack : List Context) (token : Token) :
    readOperand inner (stack ++ context :: around) token =
      (readOperand inner stack token).inside context around := by
  cases token with
  | literal l =>
      simp only [readOperand]
      cases l.value with
      | error e => rfl
      | ok value => exact deliver_inside context around inner value stack
  | _ => rfl

theorem readSigned_inside (pending : Option (Value × Operator)) (stack : List Context)
    (token : Token) :
    readSigned pending (stack ++ context :: around) token =
      (readSigned pending stack token).inside context around := by
  have hoperand := readOperand_inside context around ⟨pending, false⟩ stack token
  cases token with
  | plus => rfl
  | minus => rfl
  | _ => exact hoperand

/-- The levels around a group do not matter to a step inside it. -/
theorem stepPhase_inside (stack : List Context) (token : Token) (phase : Phase) :
    stepPhase outer (stack ++ context :: around) token phase =
      (stepPhase .closingParenthesis stack token phase).inside context around := by
  have hterminator : terminator outer (stack ++ context :: around) =
      terminator .closingParenthesis stack := by
    cases stack <;> rfl
  cases phase with
  | start =>
      rw [stepPhase, stepPhase, hterminator]
      split
      · exact close_inside context around _ stack
      · exact readSigned_inside context around none stack token
  | operand left =>
      rw [stepPhase, stepPhase, hterminator]
      split
      · exact close_inside context around left stack
      · cases token.operator? with
        | none => exact readSigned_inside context around (some (left, .add)) stack token
        | some op => rfl
  | operator left op =>
      rw [stepPhase, stepPhase, hterminator]
      split
      · exact close_inside context around left stack
      · exact readSigned_inside context around (some (left, op)) stack token
  | sign inner => exact readOperand_inside context around inner stack token

/-- What becomes of the run of a group over these tokens inside the levels around it: where it has
a value, the value is delivered and the level that has opened the group goes on. -/
def Run.inside (tokens : List Token) (group : Run) : Run :=
  match group.control with
  | .running phase stack =>
      ⟨group.trace, group.consumed, .running phase (stack ++ context :: around)⟩
  | .done value =>
      let delivered := deliver context value around
      let later := run outer delivered.next (tokens.drop group.consumed)
      ⟨group.trace ++ delivered.operation.toList ++ later.trace, group.consumed + later.consumed,
        later.control⟩
  | .failed e => ⟨group.trace, group.consumed, .failed e⟩

/-- A run over one more token in front. -/
theorem run_cons (phase : Phase) (stack : List Context) (token : Token) (rest : List Token) :
    run outer (.running phase stack) (token :: rest) =
      ⟨(stepPhase outer stack token phase).operation.toList ++
          (run outer (stepPhase outer stack token phase).next rest).trace,
        (run outer (stepPhase outer stack token phase).next rest).consumed + 1,
        (run outer (stepPhase outer stack token phase).next rest).control⟩ := rfl

/-- A group is an evaluation of its own. -/
theorem run_group (phase : Phase) (stack : List Context) (tokens : List Token) :
    run outer (.running phase (stack ++ context :: around)) tokens =
      (run .closingParenthesis (.running phase stack) tokens).inside outer context around tokens := by
  induction tokens generalizing phase stack with
  | nil => rfl
  | cons token rest ih =>
      rw [run_cons, run_cons, stepPhase_inside]
      have hmove := stepPhase_move .closingParenthesis phase stack token
      generalize stepPhase .closingParenthesis stack token phase = step at hmove ⊢
      cases hnext : step.next with
      | running phase' stack' =>
          simp only [Step.inside, hnext]
          rw [ih phase' stack']
          unfold Run.inside
          cases (run .closingParenthesis (.running phase' stack') rest).control with
          | running phase stack => rfl
          | done value => simp [Nat.add_right_comm]
          | failed e => rfl
      | done value =>
          -- the group ends here, without an operation of its own
          obtain ⟨-, -, -, hoperation⟩ := hmove.ended_of_next hnext
          simp only [Step.inside, hnext, hoperation]
          cases rest <;> simp [Run.inside, run, run_nil, Nat.add_comm]
      | failed e =>
          simp only [Step.inside, hnext]
          cases rest <;> rfl

end Inside

/-- A machine that opens a group goes on directly behind the parenthesis that belongs to the opening
one, where the value of the group is delivered to the level that has opened it. -/
theorem control_behind_group {outer : Terminator} {tokens : List Token} {opening : Nat}
    {phase : Phase} {stack : List Context} {value : Value}
    (hrunning : (run outer (.running .start []) (tokens.take opening)).control =
      .running phase stack)
    (hopen : tokens[opening]? = some .leftParenthesis)
    (hgroup : (evaluateUntil .closingParenthesis tokens (opening + 1)).1.result = .ok value) :
    ∃ closing, Encloses tokens opening closing ∧
      (run outer (.running .start []) (tokens.take (closing + 1))).control =
        (deliver phase.context value stack).next := by
  obtain ⟨between, rest, hdrop, -, hbalanced, hrun⟩ :=
    exists_balanced_of_done (Control.result_eq_ok_iff.1 hgroup)
  obtain ⟨hconsumed, hdone⟩ := hrun []
  have htake : tokens.take (opening + 1 + between.length + 1) =
      tokens.take opening ++
        .leftParenthesis :: (between ++ [Terminator.closingParenthesis.token]) := by
    rw [take_of_drop hdrop, List.take_add_one, hopen, List.append_assoc]
    rfl
  refine ⟨opening + 1 + between.length, ⟨by omega, hopen, getElem?_of_drop hdrop, ?_⟩, ?_⟩
  · rwa [extract_of_drop hdrop]
  · have hinside := run_group outer phase.context stack .start []
      (between ++ [Terminator.closingParenthesis.token])
    rw [List.nil_append] at hinside
    rw [htake, control_run_append, hrunning, run_cons, stepPhase_leftParenthesis]
    simp only [Step.silent, hinside, Run.inside, hdone, hconsumed]
    rw [List.drop_of_length_le (by simp), run_nil]

end Evaluation

open Evaluation

/-- A level that has a value ends at its own terminator: between its first token and the terminator
there is no end of the input, and every parenthesis has its counterpart. So a group ends at the
parenthesis that belongs to the one in front of it, and the outermost level at the first end of the
input. -/
theorem evaluateUntil_ends_at_terminator {outer : Terminator} {tokens : List Token} {start : Nat}
    {value : Value} (h : (evaluateUntil outer tokens start).1.result = .ok value) :
    ∃ last, (evaluateUntil outer tokens start).2 = last + 1 ∧ start ≤ last ∧
      tokens[last]? = some outer.token ∧ .endOfInput ∉ tokens.extract start last ∧
      Balanced (tokens.extract start last) ∧
      (outer = .closingParenthesis → ∀ opening, opening + 1 = start →
        tokens[opening]? = some .leftParenthesis →
          ∀ closing, Encloses tokens opening closing ↔ closing = last) ∧
      (outer = .endOfInput → ∀ i, start ≤ i → tokens[i]? = some .endOfInput → last ≤ i) := by
  obtain ⟨before, rest, hdrop, hunended, hbalanced, hrun⟩ :=
    exists_balanced_of_done (Control.result_eq_ok_iff.1 h)
  have hlast := getElem?_of_drop hdrop
  have hextract := extract_of_drop hdrop
  refine ⟨start + before.length, ?_, Nat.le_add_right _ _, hlast, ?_, ?_, ?_, ?_⟩
  · have hconsumed := (hrun rest).1
    rw [← hdrop] at hconsumed
    exact congrArg (start + ·) hconsumed
  · rwa [hextract]
  · rwa [hextract]
  · rintro rfl opening rfl hopen closing
    have hencloses : Encloses tokens opening (opening + 1 + before.length) :=
      ⟨by omega, hopen, hlast, by rwa [hextract]⟩
    constructor
    · intro hclosing
      exact hclosing.unique hencloses
    · rintro rfl
      exact hencloses
  · rintro - i hi hend
    by_contra hlt
    obtain ⟨d, rfl⟩ := Nat.exists_eq_add_of_le hi
    have hd : d < before.length := by omega
    rw [← List.getElem?_drop, hdrop, List.getElem?_append_left hd] at hend
    exact hunended (List.mem_of_getElem? hend)

/-- In `2 ( (1h -) () + ) 3` the group that begins behind the first parenthesis ends at the last
one, behind an operator that joins nothing, and the tokens from the group on end at the end of the
input.
-/
theorem evaluateUntil_ends_at_terminator_of_group :
    let tokens : List Token := [.literal (.integer "2"), .leftParenthesis, .leftParenthesis,
      .literal (.duration "1h"), .minus, .rightParenthesis, .leftParenthesis, .rightParenthesis,
      .plus, .rightParenthesis, .star, .literal (.integer "3"), .endOfInput]
    (evaluateUntil .closingParenthesis tokens 2).1.result = .ok (.duration ⟨3600000000000⟩) ∧
      (evaluateUntil .closingParenthesis tokens 2).2 = 10 ∧
      Encloses tokens 1 9 ∧ Balanced (tokens.extract 2 9) ∧
      (evaluateUntil .endOfInput tokens 1).1.result = .ok (.duration ⟨10800000000000⟩) ∧
      (evaluateUntil .endOfInput tokens 1).2 = 13 ∧ Balanced (tokens.extract 1 12) := by
  intro tokens
  have hgroup : (evaluateUntil .closingParenthesis tokens 2).1.result =
      .ok (.duration ⟨3600000000000⟩) := rfl
  have houtermost : (evaluateUntil .endOfInput tokens 1).1.result =
      .ok (.duration ⟨10800000000000⟩) := rfl
  obtain ⟨last, hlast, -, -, -, hbalanced, hencloses, -⟩ := evaluateUntil_ends_at_terminator hgroup
  obtain rfl : 9 = last := Nat.succ.inj hlast
  obtain ⟨last, hlast, -, -, -, hbalanced', -⟩ := evaluateUntil_ends_at_terminator houtermost
  obtain rfl : 12 = last := Nat.succ.inj hlast
  exact ⟨hgroup, rfl, (hencloses rfl 1 rfl rfl 9).2 rfl, hbalanced, houtermost, rfl, hbalanced'⟩

end DurationCalculator
