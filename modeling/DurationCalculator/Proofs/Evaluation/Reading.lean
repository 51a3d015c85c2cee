import DurationCalculator.Evaluation.Machine
import DurationCalculator.Proofs.Grammar.Tree
import DurationCalculator.Proofs.Value.Quantity

/-!
# The machine reads like the grammar

The machine keeps values where the reader of expression trees keeps trees. Step by step the two
stay at the same place: a phase follows a level, and there are as many contexts on the stack as
levels around it. A token that the reader takes leaves the machine at the reader's next place,
unless a value is refused (`next_of_step_eq_some`). A token that the reader refuses ends the
input, or is reported as misplaced (`next_of_step_eq_none`). So a machine that still runs has
read what the reader can read (`readFrom_of_running`).
-/

set_option autoImplicit false

namespace DurationCalculator

/-- The error of a token at a place where it cannot be read. Literals and opening parentheses
can be read at every place. -/
def Token.misplaced? : Token → Option EvaluationError
  | literal _ => none
  | leftParenthesis => none
  | rightParenthesis => some .unexpectedClosingParenthesis
  | endOfInput => some .unexpectedEndOfInput
  | token => some (.unexpectedToken token)

/-- The errors that report a misplaced token. -/
def EvaluationError.Grammatical : EvaluationError → Prop
  | unexpectedClosingParenthesis => True
  | unexpectedToken _ => True
  | unexpectedEndOfInput => True
  | _ => False

/-- The errors of operations on values. -/
def EvaluationError.OfOperation : EvaluationError → Prop
  | unsupportedOperandTypes _ _ _ => True
  | divisionByZero => True
  | overflow => True
  | _ => False

/-! ## Errors of values -/

theorem EvaluationError.OfOperation.not_grammatical {e : EvaluationError} (h : e.OfOperation) :
    ¬ e.Grammatical := by
  cases e <;> first | exact h.elim | exact id

/-- A literal that is refused is reported with its text. -/
theorem Literal.exists_fault_of_value {l : Literal} {e : EvaluationError}
    (h : l.value = .error e) : ∃ fault, e = .literal ⟨fault, l.text⟩ := by
  cases l with
  | duration text =>
      rw [value, DurationLiteral.parse] at h
      cases hread : DurationLiteral.read text.toList with
      | error fault =>
          rw [hread] at h
          cases h
          exact ⟨fault, rfl⟩
      | ok d =>
          rw [hread] at h
          cases h
  | integer text =>
      rw [value, IntegerLiteral.parse] at h
      cases hread : IntegerLiteral.read? text.toList with
      | none =>
          rw [hread] at h
          cases h
          exact ⟨.invalidInteger, rfl⟩
      | some n =>
          rw [hread] at h
          cases h

theorem Literal.not_grammatical_of_value {l : Literal} {e : EvaluationError}
    (h : l.value = .error e) : ¬ e.Grammatical := by
  obtain ⟨fault, rfl⟩ := exists_fault_of_value h
  exact id

theorem Quantity.ofOperation_of_checked {q : Quantity} {e : EvaluationError}
    (h : q.checked = .error e) : e.OfOperation := by
  by_cases hrange : Checked.InRange q.amount
  · rw [Quantity.checked_of_inRange hrange] at h
    cases h
  · rw [Quantity.checked_of_not_inRange hrange] at h
    cases h
    trivial

theorem Value.ofOperation_of_negate {v : Value} {e : EvaluationError} (h : v.negate = .error e) :
    e.OfOperation := by
  have hexact : v.quantity.negate = .error e := by
    rw [← Value.map_quantity_negate, h]
    rfl
  exact Quantity.ofOperation_of_checked hexact

theorem Operator.ofOperation_of_apply {op : Operator} {left right : Value} {e : EvaluationError}
    (h : op.apply left right = .error e) : e.OfOperation := by
  have hexact : Quantity.apply op left.quantity right.quantity = .error e := by
    rw [← Operator.map_quantity_apply, h]
    rfl
  unfold Quantity.apply at hexact
  split at hexact
  · cases hexact
    trivial
  · split at hexact
    · cases hexact
      trivial
    · exact Quantity.ofOperation_of_checked hexact

namespace Evaluation

open Grammar

/-! ## Places -/

/-- The phase of the machine at a level of the reader. -/
inductive Phase.Follows : Phase → Level → Prop where
  | start : Follows .start (.awaiting none none)
  | operand (left : Value) (s : Sequence) : Follows (.operand left) (.complete s)
  | operator (left : Value) (s : Sequence) (op : Operator) :
      Follows (.operator left op) (.awaiting (some (s, op)) none)
  | sign (context : Context) (before : Option (Sequence × Operator)) (sign : Sign) :
      Follows (.sign context) (.awaiting before (some sign))

/-- A running machine at a position of the reader. -/
def Control.Follows : Control → Position → Prop
  | .running phase stack, (level, outer) => phase.Follows level ∧ stack.length = outer.length
  | _, _ => False

/-- The context of an operand without a sign. -/
def Phase.context : Phase → Context
  | start => ⟨none, false⟩
  | operand left => ⟨some (left, .add), false⟩
  | operator left op => ⟨some (left, op), false⟩
  | sign context => context

/-- The value of a level that ends here. It cannot end behind a sign. -/
def Phase.value? : Phase → Option Value
  | start => some (.duration Duration.zero)
  | operand left => some left
  | operator left _ => some left
  | sign _ => none

/-- A level ends for the machine where it ends for the reader. -/
theorem Phase.Follows.isSome_value? {phase : Phase} {level : Level} (h : phase.Follows level) :
    phase.value?.isSome = level.expression?.isSome := by
  cases h with
  | start => rfl
  | operand left s => rfl
  | operator left s op => rfl
  | sign context before sign => cases before <;> rfl

/-! ## Deliveries -/

/-- The steps that complete an operand of value `value` at a level with this context. -/
inductive Delivery (context : Context) (value : Value) (stack : List Context) : Step → Prop where
  | refused {e : EvaluationError} : e.OfOperation → Delivery context value stack (.fail e)
  /-- The operand is the first of its level. -/
  | first {right : Value} : (if context.negative then value.negate else .ok value) = .ok right →
      context.pending = none →
      Delivery context value stack (.silent (.running (.operand right) stack))
  /-- The operand is joined to what stands on its left. -/
  | joined {left right result : Value} {op : Operator} :
      (if context.negative then value.negate else .ok value) = .ok right →
      context.pending = some (left, op) → op.apply left right = .ok result →
      Delivery context value stack
        ⟨some ⟨left, op, right, result⟩, .running (.operand result) stack⟩

/-- A value that is delivered is refused, stands first, or is joined. -/
theorem deliver_delivery (context : Context) (value : Value) (stack : List Context) :
    Delivery context value stack (deliver context value stack) := by
  have hsign : ∀ e, (if context.negative then value.negate else .ok value) = .error e →
      e.OfOperation := by
    intro e h
    split at h
    · exact Value.ofOperation_of_negate h
    · cases h
  -- the sign may refuse the value, and then the operation may refuse the operands
  unfold deliver
  cases hright : (if context.negative then value.negate else .ok value) with
  | error e => exact .refused (hsign e hright)
  | ok right =>
      rcases hpending : context.pending with _ | ⟨left, op⟩
      · exact .first hright hpending
      · cases happly : op.apply left right with
        | error e => simpa [happly] using .refused (Operator.ofOperation_of_apply happly)
        | ok result => simpa [happly] using .joined hright hpending happly

/-! ## Steps of the machine -/

section Step

variable (outer : Terminator) (stack : List Context)

/-- A token that is no operator and does not end the level has to begin an operand. -/
theorem stepPhase_of_operator?_eq_none {token : Token} {phase : Phase}
    (hop : token.operator? = none)
    (hend : phase.value? = none ∨ (terminator outer stack).token ≠ token) :
    stepPhase outer stack token phase = readOperand phase.context stack token := by
  -- a token that is no operator is no sign
  have hsigned : ∀ pending, readSigned pending stack token =
      readOperand ⟨pending, false⟩ stack token := by
    intro pending
    cases token <;> first | rfl | cases hop
  cases phase with
  | sign context => rfl
  | start =>
      have hne : token ≠ (terminator outer stack).token := (hend.resolve_left nofun).symm
      rw [stepPhase, if_neg hne, hsigned]
      rfl
  | operand left =>
      have hne : token ≠ (terminator outer stack).token := (hend.resolve_left nofun).symm
      simp only [stepPhase, if_neg hne, hop, hsigned]
      rfl
  | operator left op =>
      have hne : token ≠ (terminator outer stack).token := (hend.resolve_left nofun).symm
      rw [stepPhase, if_neg hne, hsigned]
      rfl

/-- A literal begins an operand, at every place. -/
theorem stepPhase_literal (phase : Phase) (l : Literal) :
    stepPhase outer stack (.literal l) phase =
      readOperand phase.context stack (.literal l) := by
  refine stepPhase_of_operator?_eq_none outer stack rfl (Or.inr ?_)
  cases terminator outer stack <;> nofun

/-- An opening parenthesis begins an operand, at every place. -/
theorem stepPhase_leftParenthesis (phase : Phase) :
    stepPhase outer stack .leftParenthesis phase =
      .silent (.running .start (phase.context :: stack)) := by
  refine stepPhase_of_operator?_eq_none outer stack rfl (Or.inr ?_)
  cases terminator outer stack <;> nofun

/-- The terminator of a level ends it. -/
theorem stepPhase_terminator {phase : Phase} {value : Value} (h : phase.value? = some value) :
    stepPhase outer stack (terminator outer stack).token phase = close value stack := by
  cases phase with
  | start =>
      cases h
      exact if_pos rfl
  | operand left =>
      cases h
      exact if_pos rfl
  | operator left op =>
      cases h
      exact if_pos rfl
  | sign context => cases h

/-- A completed operand leaves the machine behind it, or a value is refused. -/
theorem next_deliver (context : Context) (value : Value) :
    (∃ left, (deliver context value stack).next = .running (.operand left) stack) ∨
      ∃ e, (deliver context value stack).next = .failed e ∧ e.OfOperation := by
  have hdelivery := deliver_delivery context value stack
  generalize deliver context value stack = step at hdelivery ⊢
  cases hdelivery with
  | refused he => exact Or.inr ⟨_, rfl, he⟩
  | first _ _ => exact Or.inl ⟨_, rfl⟩
  | joined _ _ _ => exact Or.inl ⟨_, rfl⟩

/-- An operator behind an operand joins the next one. -/
theorem stepPhase_operator (left : Value) (op : Operator) :
    stepPhase outer stack op.token (.operand left) =
      .silent (.running (.operator left op) stack) := by
  have hne : op.token ≠ (terminator outer stack).token := by
    cases op <;> cases terminator outer stack <;> nofun
  simp only [stepPhase, if_neg hne, Operator.operator?_token]

/-- A sign in front of an operand without one is read. -/
theorem stepPhase_sign {phase : Phase} {level : Level}
    {before : Option (Sequence × Operator)} (h : phase.Follows level)
    (hlevel : level = .awaiting before none) (sign : Sign) :
    stepPhase outer stack sign.token phase =
      .silent (.running (.sign ⟨phase.context.pending, sign = .minus⟩) stack) := by
  have hne : sign.token ≠ (terminator outer stack).token := by
    cases sign <;> cases terminator outer stack <;> nofun
  cases h with
  | start =>
      rw [stepPhase, if_neg hne]
      cases sign <;> rfl
  | operand left s => cases hlevel
  | operator left s op =>
      rw [stepPhase, if_neg hne]
      cases sign <;> rfl
  | sign context before sign => cases hlevel

/-- An operator that is neither binary here nor a sign is misplaced. -/
theorem stepPhase_misplaced_operator {phase : Phase} {level : Level} {op : Operator}
    (h : phase.Follows level) (hsymbol : level.stepSymbol op.token = none) :
    stepPhase outer stack op.token phase = .fail (.unexpectedToken op.token) := by
  have hne : op.token ≠ (terminator outer stack).token := by
    cases op <;> cases terminator outer stack <;> nofun
  cases h with
  | start =>
      rw [stepPhase, if_neg hne]
      cases op <;> first | rfl | cases hsymbol
  | operand left s => cases op <;> cases hsymbol
  | operator left s joint =>
      rw [stepPhase, if_neg hne]
      cases op <;> first | rfl | cases hsymbol
  | sign context before sign => cases op <;> rfl

/-- An operator that the reader takes leaves the machine where the reader is. -/
theorem stepPhase_of_stepSymbol {phase : Phase} {level next : Level} {op : Operator}
    (h : phase.Follows level) (hsymbol : level.stepSymbol op.token = some next) :
    ∃ phase', stepPhase outer stack op.token phase = .silent (.running phase' stack) ∧
      phase'.Follows next := by
  rcases level with ⟨before, _ | sign⟩ | s
  · obtain ⟨sign, hsign, rfl⟩ := Option.map_eq_some_iff.1 hsymbol
    have htoken : sign.token = op.token := by
      cases op <;> cases hsign <;> rfl
    rw [← htoken, stepPhase_sign outer stack h rfl]
    exact ⟨_, rfl, .sign _ before sign⟩
  · cases hsymbol
  · obtain ⟨op', hop, rfl⟩ := Option.map_eq_some_iff.1 hsymbol
    obtain rfl : op = op' := Option.some.inj ((Operator.operator?_token op).symm.trans hop)
    cases h with
    | operand left s =>
        rw [stepPhase_operator]
        exact ⟨_, rfl, .operator left s op⟩

end Step

/-! ## Steps of the machine and the reader -/

section Simulation

variable {phase : Phase} {stack : List Context} {level : Level} {outer : List Level}
  {token : Token}

/-- A completed operand leaves the machine at a complete level, or a value is refused. -/
theorem follows_deliver (context : Context) (value : Value) (s : Sequence)
    (hlen : stack.length = outer.length) :
    (deliver context value stack).next.Follows (.complete s, outer) ∨
      ∃ e, (deliver context value stack).next = .failed e ∧ ¬ e.Grammatical := by
  rcases next_deliver stack context value with ⟨left, hnext⟩ | ⟨e, hnext, he⟩
  · rw [hnext]
    exact Or.inl ⟨.operand left s, hlen⟩
  · exact Or.inr ⟨e, hnext, he.not_grammatical⟩

/-- A token that the reader takes leaves the machine where the reader is, or a value is
refused. -/
theorem next_of_step_eq_some (hphase : phase.Follows level)
    (hlen : stack.length = outer.length) {next : Position}
    (h : level.step token outer = some next) :
    (stepPhase .endOfInput stack token phase).next.Follows next ∨
      ∃ e, (stepPhase .endOfInput stack token phase).next = .failed e ∧ ¬ e.Grammatical := by
  -- the four operators, as signs or between operands
  have hoperator : ∀ op : Operator, token = op.token →
      (level.stepSymbol token).map (fun next => (next, outer)) = some next →
      (stepPhase .endOfInput stack token phase).next.Follows next := by
    rintro op rfl h
    obtain ⟨now, hnow, rfl⟩ := Option.map_eq_some_iff.1 h
    obtain ⟨phase', hstep, hfollows⟩ := stepPhase_of_stepSymbol .endOfInput stack hphase hnow
    rw [hstep]
    exact ⟨hfollows, hlen⟩
  cases token with
  | literal l =>
      cases h
      rw [stepPhase_literal]
      cases hvalue : l.value with
      | error e =>
          refine Or.inr ⟨e, ?_, Literal.not_grammatical_of_value hvalue⟩
          simp [readOperand, hvalue, Step.fail]
      | ok value =>
          simp only [readOperand, hvalue]
          exact follows_deliver phase.context value _ hlen
  | leftParenthesis =>
      cases h
      rw [stepPhase_leftParenthesis]
      exact Or.inl ⟨.start, by simp [hlen]⟩
  | rightParenthesis =>
      cases hbody : level.expression? with
      | none => simp [Level.step, hbody] at h
      | some body =>
          cases outer with
          | nil => simp [Level.step, hbody] at h
          | cons enclosing rest =>
              simp only [Level.step, hbody, Option.some.injEq] at h
              subst h
              -- the group has a value, which is an operand of the enclosing level
              obtain ⟨context, stack, rfl⟩ := List.exists_cons_of_length_eq_add_one hlen
              obtain ⟨value, hvalue⟩ : ∃ value, phase.value? = some value := by
                rw [← Option.isSome_iff_exists, hphase.isSome_value?, hbody]
                rfl
              have hstep := stepPhase_terminator .endOfInput (context :: stack) hvalue
              change stepPhase _ _ .rightParenthesis phase = deliver context value stack at hstep
              rw [hstep]
              exact follows_deliver context value _ (Nat.succ.inj hlen)
  | plus => exact Or.inl (hoperator .add rfl h)
  | minus => exact Or.inl (hoperator .sub rfl h)
  | star => exact Or.inl (hoperator .mul rfl h)
  | slash => exact Or.inl (hoperator .div rfl h)
  | whitespace =>
      rcases level with ⟨before, _ | sign⟩ | s <;> cases h
  | endOfInput =>
      rcases level with ⟨before, _ | sign⟩ | s <;> cases h

/-- The end of the input behind an expression ends the evaluation with a value. -/
theorem next_endOfInput (hphase : phase.Follows level) (hlen : stack.length = outer.length)
    (h : (Position.expression? (level, outer)).isSome) :
    ∃ value, (stepPhase .endOfInput stack .endOfInput phase).next = .done value := by
  cases outer with
  | nil =>
      obtain rfl := List.length_eq_zero_iff.1 hlen
      obtain ⟨value, hvalue⟩ : ∃ value, phase.value? = some value := by
        rw [← Option.isSome_iff_exists, hphase.isSome_value?]
        exact h
      have hstep := stepPhase_terminator .endOfInput [] hvalue
      change stepPhase _ _ .endOfInput phase = .silent (.done value) at hstep
      exact ⟨value, by rw [hstep]; rfl⟩
  | cons enclosing rest => cases h

/-- Any other token that the reader refuses is reported as misplaced. -/
theorem next_of_misplaced (hphase : phase.Follows level) (hlen : stack.length = outer.length)
    (h : level.step token outer = none)
    (hend : ¬ (token = .endOfInput ∧ (Position.expression? (level, outer)).isSome)) :
    ∃ e, token.misplaced? = some e ∧
      (stepPhase .endOfInput stack token phase).next = .failed e := by
  -- where no expression can end, the machine has no value to end with
  have hvalue : level.expression? = none → phase.value? = none := by
    intro hlevel
    rw [← Option.isNone_iff_eq_none, ← Option.not_isSome, hphase.isSome_value?, hlevel]
    rfl
  have hoperator : ∀ op : Operator, token = op.token →
      (level.stepSymbol token).map (fun next => (next, outer)) = none →
      (stepPhase .endOfInput stack token phase).next = .failed (.unexpectedToken token) := by
    rintro op rfl h
    rw [stepPhase_misplaced_operator .endOfInput stack hphase (Option.map_eq_none_iff.1 h)]
    rfl
  cases token with
  | literal l => cases h
  | leftParenthesis => cases h
  | rightParenthesis =>
      refine ⟨_, rfl, ?_⟩
      rw [stepPhase_of_operator?_eq_none .endOfInput stack rfl]
      · rfl
      · -- inside a group, only a sign keeps the parenthesis from closing it
        cases outer with
        | nil =>
            obtain rfl := List.length_eq_zero_iff.1 hlen
            exact Or.inr nofun
        | cons enclosing rest =>
            refine Or.inl (hvalue ?_)
            cases hbody : level.expression? with
            | none => rfl
            | some body => simp [Level.step, hbody] at h
  | plus => exact ⟨_, rfl, hoperator .add rfl h⟩
  | minus => exact ⟨_, rfl, hoperator .sub rfl h⟩
  | star => exact ⟨_, rfl, hoperator .mul rfl h⟩
  | slash => exact ⟨_, rfl, hoperator .div rfl h⟩
  | whitespace =>
      refine ⟨_, rfl, ?_⟩
      rw [stepPhase_of_operator?_eq_none .endOfInput stack rfl]
      · rfl
      · refine Or.inr ?_
        cases terminator Terminator.endOfInput stack <;> nofun
  | endOfInput =>
      refine ⟨_, rfl, ?_⟩
      rw [stepPhase_of_operator?_eq_none .endOfInput stack rfl]
      · rfl
      · cases outer with
        | nil =>
            refine Or.inl (hvalue (Option.not_isSome_iff_eq_none.1 ?_))
            intro hsome
            exact hend ⟨rfl, hsome⟩
        | cons enclosing rest =>
            -- a group is ended by its parenthesis only
            obtain ⟨context, stack, rfl⟩ := List.exists_cons_of_length_eq_add_one hlen
            exact Or.inr nofun

/-- A token that the reader refuses is the end of the input behind an expression, or the
machine reports it as misplaced. -/
theorem next_of_step_eq_none (hphase : phase.Follows level)
    (hlen : stack.length = outer.length) (h : level.step token outer = none) :
    (token = .endOfInput ∧ (Position.expression? (level, outer)).isSome ∧
        ∃ value, (stepPhase .endOfInput stack token phase).next = .done value) ∨
      ∃ e, token.misplaced? = some e ∧
        (stepPhase .endOfInput stack token phase).next = .failed e := by
  by_cases hend : token = .endOfInput ∧ (Position.expression? (level, outer)).isSome
  · obtain ⟨rfl, hsome⟩ := hend
    exact Or.inl ⟨rfl, hsome, next_endOfInput hphase hlen hsome⟩
  · exact Or.inr (next_of_misplaced hphase hlen h hend)

end Simulation

/-! ## Runs -/

/-- A machine that still runs has read what the reader reads. -/
theorem readFrom_of_running {tokens : List Token} {control : Control} {position : Position}
    (hcontrol : control.Follows position) {phase : Phase} {stack : List Context}
    (hrun : (run .endOfInput control tokens).control = .running phase stack) :
    ∃ next, readFrom position tokens = some next ∧
      (Control.running phase stack).Follows next := by
  -- on the tokens; that the machine is where the reader is carries the induction
  induction tokens generalizing control position with
  | nil =>
      rw [run_nil] at hrun
      change control = _ at hrun
      exact ⟨position, rfl, hrun ▸ hcontrol⟩
  | cons token rest ih =>
      rcases position with ⟨level, outer⟩
      cases control with
      | done value => cases hcontrol
      | failed e => cases hcontrol
      | running phase' stack' =>
          obtain ⟨hphase, hlen⟩ := hcontrol
          change (run .endOfInput (stepPhase .endOfInput stack' token phase').next rest).control =
            _ at hrun
          cases hstep : level.step token outer with
          | some next =>
              rcases next_of_step_eq_some hphase hlen hstep with hnext | ⟨e, hnext, -⟩
              · obtain ⟨last, hread, hlast⟩ := ih hnext hrun
                exact ⟨last, by simp [readFrom, hstep, hread], hlast⟩
              · -- a machine that has failed does not run again
                rw [hnext] at hrun
                cases rest <;> cases hrun
          | none =>
              rcases next_of_step_eq_none hphase hlen hstep with
                ⟨-, -, value, hnext⟩ | ⟨e, -, hnext⟩
              · rw [hnext] at hrun
                cases rest <;> cases hrun
              · rw [hnext] at hrun
                cases rest <;> cases hrun

/-- A run that has halted did so at some token, and was running in front of it. -/
theorem exists_last_step {outer : Terminator} {tokens : List Token} {phase : Phase}
    {stack : List Context} {control : Control}
    (hrun : (run outer (.running phase stack) tokens).control = control)
    (hhalted : ∀ phase' stack', control ≠ .running phase' stack') :
    ∃ before token rest phase' stack', tokens = before ++ token :: rest ∧
      (run outer (.running phase stack) before).control = .running phase' stack' ∧
      (stepPhase outer stack' token phase').next = control := by
  induction tokens generalizing phase stack with
  | nil => exact absurd hrun.symm (hhalted phase stack)
  | cons token rest ih =>
      change (run outer (stepPhase outer stack token phase).next rest).control = control at hrun
      cases hnext : (stepPhase outer stack token phase).next with
      | running phase' stack' =>
          rw [hnext] at hrun
          obtain ⟨before, last, after, phase'', stack'', rfl, hbefore, hlast⟩ := ih hrun
          refine ⟨token :: before, last, after, phase'', stack'', rfl, ?_, hlast⟩
          change (run outer (stepPhase outer stack token phase).next before).control = _
          rw [hnext]
          exact hbefore
      | done value =>
          -- this step halts, and the rest changes nothing
          refine ⟨[], token, rest, phase, stack, rfl, rfl, ?_⟩
          rw [hnext, ← hrun, hnext]
          cases rest <;> rfl
      | failed e =>
          refine ⟨[], token, rest, phase, stack, rfl, rfl, ?_⟩
          rw [hnext, ← hrun, hnext]
          cases rest <;> rfl

/-! ## Evaluations -/

/-- The control that the evaluation of a token list reaches. -/
def finalControl (tokens : List Token) : Control :=
  (run .endOfInput (.running .start []) tokens).control

theorem finalControl_append (xs ys : List Token) :
    finalControl (xs ++ ys) = (run .endOfInput (finalControl xs) ys).control :=
  control_run_append .endOfInput xs ys _

theorem result_evaluateTokens (tokens : List Token) :
    ∃ cursor, (evaluateTokens tokens).result =
      (finalControl tokens).result cursor tokens.length :=
  ⟨_, rfl⟩

theorem result_eq_ok_iff {tokens : List Token} {value : Value} :
    (evaluateTokens tokens).result = .ok value ↔ finalControl tokens = .done value := by
  obtain ⟨cursor, hresult⟩ := result_evaluateTokens tokens
  rw [hresult]
  cases finalControl tokens <;> simp [Control.result]

theorem result_eq_evaluation_iff {tokens : List Token} {e : EvaluationError} :
    (evaluateTokens tokens).result = .error (.evaluation e) ↔
      finalControl tokens = .failed e := by
  obtain ⟨cursor, hresult⟩ := result_evaluateTokens tokens
  rw [hresult]
  cases finalControl tokens <;> simp [Control.result]

/-- Where every evaluation starts. -/
theorem follows_start : (Control.running .start []).Follows Position.start :=
  ⟨.start, rfl⟩

/-- An evaluation that ends with a value has read an expression and the end of the input
behind it. -/
theorem exists_expression_of_done {tokens : List Token} {value : Value}
    (h : finalControl tokens = .done value) :
    ∃ (e : Expression) (rest : List Token), tokens = e.tokens ++ .endOfInput :: rest := by
  obtain ⟨before, token, rest, phase, stack, rfl, hbefore, hlast⟩ := exists_last_step h nofun
  obtain ⟨⟨level, outer⟩, hread, hphase, hlen⟩ := readFrom_of_running follows_start hbefore
  -- a token that the reader takes never ends the evaluation with a value
  cases hstep : level.step token outer with
  | some next =>
      rcases next_of_step_eq_some hphase hlen hstep with hnext | ⟨e, hnext, -⟩
      · rw [hlast] at hnext
        cases hnext
      · cases hlast.symm.trans hnext
  | none =>
      rcases next_of_step_eq_none hphase hlen hstep with ⟨rfl, hend, -⟩ | ⟨e, -, hnext⟩
      · obtain ⟨e, he⟩ := Option.isSome_iff_exists.1 hend
        refine ⟨e, rest, ?_⟩
        have hparse : parse before = some e := by
          rw [parse, hread]
          exact he
        rw [tokens_of_parse hparse]
      · cases hlast.symm.trans hnext

end Evaluation

/-- The evaluation of the tokens wants one more, so none of them has been refused. -/
def RunsOut (tokens : List Token) : Prop :=
  ∃ position length, (evaluateTokens tokens).result = .error (.cursorOutOfRange position length)

open Evaluation in
theorem runsOut_iff {tokens : List Token} :
    RunsOut tokens ↔ ∃ phase stack, finalControl tokens = .running phase stack := by
  obtain ⟨cursor, hresult⟩ := result_evaluateTokens tokens
  rw [RunsOut, hresult]
  cases finalControl tokens <;> simp [Control.result]

end DurationCalculator
