import Mathlib.Data.List.Forall2
import DurationCalculator.Proofs.Evaluation.Reading
import DurationCalculator.Proofs.Grammar.Meaning

/-!
# Kinds depend on the shape of the tokens

Two token lists of one shape differ in nothing but the texts of their literals. Read side by side,
they take the machine through the same phases with values of the same kinds, step by step, until one
of them has a value that is refused (`stepPhase_coupled`, `run_coupled`). So the shape alone decides
the kind of the result, the kinds in the trace, and which token or which operator is reported; the
texts decide only whether a literal, a quotient or a range is refused on the way
(`kinds_depend_on_shape`).
-/

set_option autoImplicit false

namespace DurationCalculator

/-! ## Shapes -/

/-- The kind of value that a literal writes. -/
def Literal.kind : Literal → ValueKind
  | duration _ => .duration
  | integer _ => .integer

/-- The token with the text of a literal taken out. -/
def Token.shape : Token → Token
  | literal (.duration _) => literal (.duration "")
  | literal (.integer _) => literal (.integer "")
  | token => token

/-- A token that is no literal is its shape. -/
theorem Token.shape_of_ne_literal {token : Token} (h : ∀ l, token ≠ .literal l) :
    token.shape = token := by
  cases token with
  | literal l => exact absurd rfl (h l)
  | _ => rfl

/-- The shape of a literal is a literal of its kind. -/
theorem Token.shape_literal (l : Literal) :
    ∃ l', (literal l).shape = literal l' ∧ l'.kind = l.kind := by
  cases l with
  | duration text => exact ⟨_, rfl, rfl⟩
  | integer text => exact ⟨_, rfl, rfl⟩

/-- Tokens of one shape are literals of one kind, or equal. -/
theorem Token.literal_or_eq_of_shape {token token' : Token} (h : token.shape = token'.shape) :
    (∃ l l' : Literal, token = .literal l ∧ token' = .literal l' ∧ l.kind = l'.kind) ∨
      token = token' ∧ ∀ l, token ≠ .literal l := by
  by_cases hleft : ∃ l, token = .literal l
  · obtain ⟨l, rfl⟩ := hleft
    obtain ⟨m, hm, hkind⟩ := shape_literal l
    by_cases hright : ∃ l, token' = .literal l
    · obtain ⟨l', rfl⟩ := hright
      obtain ⟨m', hm', hkind'⟩ := shape_literal l'
      rw [hm, hm'] at h
      cases h
      exact Or.inl ⟨l, l', rfl, rfl, hkind.symm.trans hkind'⟩
    · rw [hm, shape_of_ne_literal (not_exists.1 hright)] at h
      exact absurd ⟨m, h.symm⟩ hright
  · rw [shape_of_ne_literal (not_exists.1 hleft)] at h
    by_cases hright : ∃ l, token' = .literal l
    · obtain ⟨l', rfl⟩ := hright
      obtain ⟨m', hm', -⟩ := shape_literal l'
      exact absurd ⟨m', h.trans hm'⟩ hleft
    · rw [shape_of_ne_literal (not_exists.1 hright)] at h
      exact Or.inr ⟨h, not_exists.1 hleft⟩

/-- The kinds in an operation. -/
def Operation.kinds (o : Operation) : OperationOn ValueKind := o.map Value.kind

namespace EvaluationError

/-- The errors that depend on what the literals are worth. -/
def OfValues : EvaluationError → Prop
  | divisionByZero => True
  | overflow => True
  | literal _ => True
  | _ => False

/-- The errors that depend on the shape of the tokens. -/
def OfShape : EvaluationError → Prop
  | unsupportedOperandTypes _ _ _ => True
  | e => e.Grammatical

theorem OfValues.not_ofShape {e : EvaluationError} (h : e.OfValues) : ¬ e.OfShape := by
  cases e <;> first | exact h.elim | exact id

end EvaluationError

/-! ## Kinds of results -/

/-- The result is refused because of what a literal is worth. -/
def Refused (result : Except EvaluationError Value) : Prop :=
  ∃ e : EvaluationError, e.OfValues ∧ result = .error e

theorem Literal.refused_or_kind (l : Literal) :
    Refused l.value ∨ l.value.map Value.kind = .ok l.kind := by
  cases l with
  | duration text =>
      rw [value]
      cases DurationLiteral.parse text with
      | error e => exact Or.inl ⟨.literal e, trivial, rfl⟩
      | ok d => exact Or.inr rfl
  | integer text =>
      rw [value]
      cases IntegerLiteral.parse text with
      | error e => exact Or.inl ⟨.literal e, trivial, rfl⟩
      | ok n => exact Or.inr rfl

/-- A map of the values keeps the errors. -/
theorem eq_error_of_map {α : Type} {f : Value → α} {result : Except EvaluationError Value}
    {e : EvaluationError} (h : result.map f = .error e) : result = .error e := by
  cases result with
  | error e' =>
      cases h
      rfl
  | ok v => cases h

/-- A result of which only the range is checked has its kind, or is out of range. -/
theorem refused_or_kind_of_checked {result : Except EvaluationError Value} {q : Quantity}
    (h : result.map Value.quantity = q.checked) :
    Refused result ∨ result.map Value.kind = .ok q.kind := by
  by_cases hrange : Checked.InRange q.amount
  · rw [Quantity.checked_of_inRange hrange] at h
    cases result with
    | error e => cases h
    | ok v => exact Or.inr (congrArg (Except.map Quantity.kind) h)
  · rw [Quantity.checked_of_not_inRange hrange] at h
    exact Or.inl ⟨.overflow, trivial, eq_error_of_map h⟩

theorem Value.refused_or_kind_negate (v : Value) :
    Refused v.negate ∨ v.negate.map kind = .ok v.kind :=
  refused_or_kind_of_checked v.map_quantity_negate

/-- The kind of the result of an operator. -/
def Operator.kindOf (op : Operator) (left right : ValueKind) : Except EvaluationError ValueKind :=
  match Quantity.resultKind? op left right with
  | none => .error (.unsupportedOperandTypes op left right)
  | some kind => .ok kind

/-- Whether an operator accepts its operands depends on their kinds, which are looked at first. -/
theorem Operator.refused_or_kind (op : Operator) (left right : Value) :
    Refused (op.apply left right) ∨
      (op.apply left right).map Value.kind = op.kindOf left.kind right.kind := by
  have hexact := op.map_quantity_apply left right
  have hkinds : left.quantity.kind = left.kind ∧ right.quantity.kind = right.kind := ⟨rfl, rfl⟩
  rw [Quantity.apply, hkinds.1, hkinds.2] at hexact
  rw [kindOf]
  cases hkind : Quantity.resultKind? op left.kind right.kind with
  | none =>
      rw [hkind] at hexact
      rw [eq_error_of_map hexact]
      exact Or.inr rfl
  | some kind =>
      rw [hkind] at hexact
      dsimp only at hexact
      split at hexact
      · exact Or.inl ⟨.divisionByZero, trivial, eq_error_of_map hexact⟩
      · exact refused_or_kind_of_checked hexact

namespace Evaluation

/-! ## Machines side by side -/

/-- Two contexts whose values have the same kinds. -/
inductive Context.Alike : Context → Context → Prop where
  | first (negative : Bool) : Alike ⟨none, negative⟩ ⟨none, negative⟩
  | joining {left left' : Value} (op : Operator) (negative : Bool) : left.kind = left'.kind →
      Alike ⟨some (left, op), negative⟩ ⟨some (left', op), negative⟩

/-- Two phases whose values have the same kinds. -/
inductive Phase.Alike : Phase → Phase → Prop where
  | start : Alike .start .start
  | operand {left left' : Value} : left.kind = left'.kind → Alike (.operand left) (.operand left')
  | operator {left left' : Value} (op : Operator) : left.kind = left'.kind →
      Alike (.operator left op) (.operator left' op)
  | sign {context context' : Context} : context.Alike context' →
      Alike (.sign context) (.sign context')

/-- Two controls whose values have the same kinds. -/
inductive Control.Alike : Control → Control → Prop where
  | running {phase phase' : Phase} {stack stack' : List Context} : phase.Alike phase' →
      List.Forall₂ Context.Alike stack stack' → Alike (.running phase stack) (.running phase' stack')
  | done {value value' : Value} : value.kind = value'.kind → Alike (.done value) (.done value')
  | failed (e : EvaluationError) : Alike (.failed e) (.failed e)

/-- The step refuses a value. -/
def Step.Refuses (step : Step) : Prop := ∃ e : EvaluationError, e.OfValues ∧ step = .fail e

/-- Two steps perform operations on the same kinds and lead to controls alike, unless one of them
refuses a value. -/
inductive Step.Coupled (step step' : Step) : Prop where
  | alike : step.operation.map Operation.kinds = step'.operation.map Operation.kinds →
      step.next.Alike step'.next → Coupled step step'
  | left : step.Refuses → Coupled step step'
  | right : step'.Refuses → Coupled step step'

theorem Step.Coupled.silent {next next' : Control} (h : next.Alike next') :
    (Step.silent next).Coupled (.silent next') := .alike rfl h

theorem Step.Coupled.fail (e : EvaluationError) : (Step.fail e).Coupled (.fail e) :=
  .alike rfl (.failed e)

/-- Goes on with a result, or fails with its error. -/
def Step.after (result : Except EvaluationError Value) (next : Value → Step) : Step :=
  match result with
  | .error e => .fail e
  | .ok value => next value

theorem Step.after_refuses {result : Except EvaluationError Value} (h : Refused result)
    (next : Value → Step) : (Step.after result next).Refuses := by
  obtain ⟨e, he, rfl⟩ := h
  exact ⟨e, he, rfl⟩

/-- Steps that go on alike with results whose kinds are determined are coupled. -/
theorem Step.Coupled.after {result result' : Except EvaluationError Value}
    {kind : Except EvaluationError ValueKind} (h : Refused result ∨ result.map Value.kind = kind)
    (h' : Refused result' ∨ result'.map Value.kind = kind) {next next' : Value → Step}
    (hnext : ∀ value value' : Value, value.kind = value'.kind →
      (next value).Coupled (next' value')) :
    (Step.after result next).Coupled (.after result' next') := by
  rcases h with hrefused | rfl
  · exact .left (after_refuses hrefused next)
  rcases h' with hrefused | hsame
  · exact .right (after_refuses hrefused next')
  -- with the same kind on both sides, both have a value or both fail with one error
  cases result with
  | error e =>
      rw [eq_error_of_map hsame]
      exact .fail e
  | ok value =>
      cases result' with
      | error e => cases hsame
      | ok value' => exact hnext value value' (Except.ok.inj hsame).symm

section Steps

variable {outer : Terminator} {context context' : Context} {stack stack' : List Context}

theorem deliver_eq_after (context : Context) (value : Value) (stack : List Context) :
    deliver context value stack =
      .after (if context.negative then value.negate else .ok value) fun right =>
        match context.pending with
        | none => .silent (.running (.operand right) stack)
        | some (left, op) => .after (op.apply left right) fun result =>
            ⟨some ⟨left, op, right, result⟩, .running (.operand result) stack⟩ := by
  rcases context with ⟨_ | ⟨left, op⟩, negative⟩ <;> rfl

theorem readOperand_literal_eq_after (context : Context) (stack : List Context) (l : Literal) :
    readOperand context stack (.literal l) =
      .after l.value fun value => deliver context value stack := rfl

/-- The value behind a sign has the kind of the value. -/
theorem refused_or_kind_signed (negative : Bool) (value : Value) :
    Refused (if negative then value.negate else .ok value) ∨
      (if negative then value.negate else .ok value).map Value.kind = .ok value.kind := by
  cases negative with
  | true => exact value.refused_or_kind_negate
  | false => exact Or.inr rfl

/-- Operands of one kind are delivered alike. -/
theorem deliver_coupled (hcontext : context.Alike context')
    (hstack : List.Forall₂ Context.Alike stack stack') {value value' : Value}
    (hvalue : value.kind = value'.kind) :
    (deliver context value stack).Coupled (deliver context' value' stack') := by
  rw [deliver_eq_after, deliver_eq_after]
  cases hcontext with
  | first negative =>
      refine .after (refused_or_kind_signed negative value) ?_ ?_
      · rw [hvalue]
        exact refused_or_kind_signed negative value'
      · intro right right' hright
        exact .silent (.running (.operand hright) hstack)
  | @joining left left' op negative hleft =>
      refine .after (refused_or_kind_signed negative value) ?_ ?_
      · rw [hvalue]
        exact refused_or_kind_signed negative value'
      · intro right right' hright
        refine .after (op.refused_or_kind left right) ?_ ?_
        · rw [hleft, hright]
          exact op.refused_or_kind left' right'
        · intro result result' hresult
          refine .alike ?_ (.running (.operand hresult) hstack)
          simp [Operation.kinds, OperationOn.map, hleft, hright, hresult]

/-- Levels of one kind end alike. -/
theorem close_coupled (hstack : List.Forall₂ Context.Alike stack stack') {value value' : Value}
    (hvalue : value.kind = value'.kind) : (close value stack).Coupled (close value' stack') := by
  cases hstack with
  | nil => exact .silent (.done hvalue)
  | cons hcontext hrest => exact deliver_coupled hcontext hrest hvalue

theorem readOperand_literal_coupled (hcontext : context.Alike context')
    (hstack : List.Forall₂ Context.Alike stack stack') {l l' : Literal} (hl : l.kind = l'.kind) :
    (readOperand context stack (.literal l)).Coupled (readOperand context' stack' (.literal l')) := by
  rw [readOperand_literal_eq_after, readOperand_literal_eq_after]
  refine .after l.refused_or_kind ?_ ?_
  · rw [hl]
    exact l'.refused_or_kind
  · intro value value' hvalue
    exact deliver_coupled hcontext hstack hvalue

theorem readOperand_coupled (hcontext : context.Alike context')
    (hstack : List.Forall₂ Context.Alike stack stack') {token : Token}
    (htoken : ∀ l, token ≠ .literal l) :
    (readOperand context stack token).Coupled (readOperand context' stack' token) := by
  cases token with
  | literal l => exact absurd rfl (htoken l)
  | leftParenthesis => exact .silent (.running .start (.cons hcontext hstack))
  | _ => exact .fail _

theorem readSigned_coupled {pending pending' : Option (Value × Operator)}
    (hpending : ∀ negative, Context.Alike ⟨pending, negative⟩ ⟨pending', negative⟩)
    (hstack : List.Forall₂ Context.Alike stack stack') {token : Token}
    (htoken : ∀ l, token ≠ .literal l) :
    (readSigned pending stack token).Coupled (readSigned pending' stack' token) := by
  cases token with
  | plus => exact .silent (.running (.sign (hpending false)) hstack)
  | minus => exact .silent (.running (.sign (hpending true)) hstack)
  | _ => exact readOperand_coupled (hpending false) hstack htoken

theorem Phase.Alike.alike_context {phase phase' : Phase} (h : phase.Alike phase') :
    phase.context.Alike phase'.context := by
  cases h with
  | start => exact .first false
  | operand hleft => exact .joining .add false hleft
  | operator op hleft => exact .joining op false hleft
  | sign hcontext => exact hcontext

theorem terminator_eq_of_alike (h : List.Forall₂ Context.Alike stack stack') :
    terminator outer stack = terminator outer stack' := by
  cases h <;> rfl

/-- Tokens of one shape keep two machines side by side, unless a value is refused. -/
theorem stepPhase_coupled {phase phase' : Phase} (hphase : phase.Alike phase')
    (hstack : List.Forall₂ Context.Alike stack stack') {token token' : Token}
    (htoken : token.shape = token'.shape) :
    (stepPhase outer stack token phase).Coupled (stepPhase outer stack' token' phase') := by
  rcases Token.literal_or_eq_of_shape htoken with ⟨l, l', rfl, rfl, hl⟩ | ⟨rfl, hsymbol⟩
  · rw [stepPhase_literal, stepPhase_literal]
    exact readOperand_literal_coupled hphase.alike_context hstack hl
  · have hend : terminator outer stack = terminator outer stack' := terminator_eq_of_alike hstack
    cases hphase with
    | start =>
        rw [stepPhase, stepPhase, hend]
        split
        · exact close_coupled hstack rfl
        · exact readSigned_coupled .first hstack hsymbol
    | operand hleft =>
        simp only [stepPhase, hend]
        split
        · exact close_coupled hstack hleft
        · cases token.operator? with
          | some op => exact .silent (.running (.operator op hleft) hstack)
          | none =>
              exact readSigned_coupled (fun negative => .joining .add negative hleft) hstack hsymbol
    | operator op hleft =>
        rw [stepPhase, stepPhase, hend]
        split
        · exact close_coupled hstack hleft
        · exact readSigned_coupled (fun negative => .joining op negative hleft) hstack hsymbol
    | sign hcontext => exact readOperand_coupled hcontext hstack hsymbol

end Steps

/-! ## Runs side by side -/

/-- The run has ended because a value was refused. -/
def Run.Refuses (run : Run) : Prop := ∃ e : EvaluationError, e.OfValues ∧ run.control = .failed e

/-- The kinds in the trace of a run. -/
def Run.kinds (run : Run) : List (OperationOn ValueKind) := run.trace.map Operation.kinds

/-- Two runs perform operations on the same kinds and reach controls alike, unless one of them
refuses a value. Up to there it has performed the same operations. -/
inductive Run.Coupled (run run' : Run) : Prop where
  | alike : run.kinds = run'.kinds → run.control.Alike run'.control → Coupled run run'
  | left : run.Refuses → run.kinds <+: run'.kinds → Coupled run run'
  | right : run'.Refuses → run'.kinds <+: run.kinds → Coupled run run'

section Runs

variable {outer : Terminator}

theorem kinds_run_cons (phase : Phase) (stack : List Context) (token : Token) (rest : List Token) :
    (run outer (.running phase stack) (token :: rest)).kinds =
      ((stepPhase outer stack token phase).operation.map Operation.kinds).toList ++
        (run outer (stepPhase outer stack token phase).next rest).kinds := by
  simp only [Run.kinds, run, List.map_append]
  cases (stepPhase outer stack token phase).operation <;> rfl

/-- A step that refuses a value ends the run, and leaves nothing in its trace. -/
theorem run_cons_of_refuses {phase : Phase} {stack : List Context} {token : Token}
    (h : (stepPhase outer stack token phase).Refuses) (rest : List Token) :
    (run outer (.running phase stack) (token :: rest)).Refuses ∧
      (run outer (.running phase stack) (token :: rest)).kinds = [] := by
  obtain ⟨e, he, hstep⟩ := h
  have hhalted : run outer (.failed e) rest = ⟨[], 0, .failed e⟩ := by
    cases rest <;> rfl
  have hrun : run outer (.running phase stack) (token :: rest) = ⟨[], 1, .failed e⟩ := by
    simp only [run, hstep, Step.fail, hhalted]
    rfl
  rw [hrun]
  exact ⟨⟨e, he, rfl⟩, rfl⟩

/-- Token lists of one shape keep two machines side by side, unless a value is refused. -/
theorem run_coupled {ts us : List Token} (h : ts.map Token.shape = us.map Token.shape)
    {control control' : Control} (hcontrol : control.Alike control') :
    (run outer control ts).Coupled (run outer control' us) := by
  induction ts generalizing us control control' with
  | nil =>
      obtain rfl : us = [] := List.map_eq_nil_iff.1 h.symm
      rw [run_nil, run_nil]
      exact .alike rfl hcontrol
  | cons token rest ih =>
      cases us with
      | nil => cases h
      | cons token' rest' =>
          obtain ⟨htoken, hrest⟩ := List.cons.inj h
          cases hcontrol with
          | done hvalue => exact .alike rfl (.done hvalue)
          | failed e => exact .alike rfl (.failed e)
          | running hphase hstack =>
              have hstep : (stepPhase outer _ token _).Coupled (stepPhase outer _ token' _) :=
                stepPhase_coupled hphase hstack htoken
              cases hstep with
              | left hrefuses =>
                  obtain ⟨hrun, hkinds⟩ := run_cons_of_refuses hrefuses rest
                  exact .left hrun (hkinds ▸ List.nil_prefix)
              | right hrefuses =>
                  obtain ⟨hrun, hkinds⟩ := run_cons_of_refuses hrefuses rest'
                  exact .right hrun (hkinds ▸ List.nil_prefix)
              | alike hoperation hnext =>
                  -- the same kinds stand in front of what the rest of the runs performs
                  cases ih hrest hnext with
                  | alike hkinds hlast =>
                      refine .alike ?_ hlast
                      rw [kinds_run_cons, kinds_run_cons, hoperation, hkinds]
                  | left hrefuses hprefix =>
                      refine .left hrefuses ?_
                      rw [kinds_run_cons, kinds_run_cons, hoperation]
                      exact (List.prefix_append_right_inj _).2 hprefix
                  | right hrefuses hprefix =>
                      refine .right hrefuses ?_
                      rw [kinds_run_cons, kinds_run_cons, hoperation]
                      exact (List.prefix_append_right_inj _).2 hprefix

end Runs

/-! ## Evaluations side by side -/

theorem evaluateTokens_coupled {ts us : List Token} (h : ts.map Token.shape = us.map Token.shape) :
    (run .endOfInput (.running .start []) ts).Coupled
      (run .endOfInput (.running .start []) us) :=
  run_coupled h (.running .start .nil)

/-- An evaluation in which no value is refused ends like that of the other list, unless a value is
refused there. -/
theorem alike_or_fails {ts us : List Token} (h : ts.map Token.shape = us.map Token.shape)
    (hvalues : ∀ e : EvaluationError, e.OfValues → finalControl ts ≠ .failed e) :
    (finalControl ts).Alike (finalControl us) ∨
      ∃ e : EvaluationError, e.OfValues ∧
        (evaluateTokens us).result = .error (.evaluation e) := by
  cases evaluateTokens_coupled h with
  | alike _ hcontrol => exact Or.inl hcontrol
  | left hrefuses _ =>
      obtain ⟨e, he, hcontrol⟩ := hrefuses
      exact absurd hcontrol (hvalues e he)
  | right hrefuses _ =>
      obtain ⟨e, he, hcontrol⟩ := hrefuses
      exact Or.inr ⟨e, he, result_eq_evaluation_iff.2 hcontrol⟩

end Evaluation

open Evaluation

/-- Of two token lists of one shape, the first decides the kind of the result of the second, and
its error where that comes from the shape, unless the second fails with an error that depends on
what its literals are worth. The kinds in one trace are the first of those in the other. -/
theorem kinds_depend_on_shape {ts us : List Token} (h : ts.map Token.shape = us.map Token.shape) :
    let fails (e : EvaluationError) : Prop := (evaluateTokens us).result = .error (.evaluation e)
    (∀ value, (evaluateTokens ts).result = .ok value →
      (∃ value', (evaluateTokens us).result = .ok value' ∧ value'.kind = value.kind) ∨
        ∃ e : EvaluationError, e.OfValues ∧ fails e) ∧
    (∀ e : EvaluationError, e.OfShape → (evaluateTokens ts).result = .error (.evaluation e) →
      fails e ∨ ∃ e' : EvaluationError, e'.OfValues ∧ fails e') ∧
    ((evaluateTokens ts).trace.map Operation.kinds <+:
        (evaluateTokens us).trace.map Operation.kinds ∨
      (evaluateTokens us).trace.map Operation.kinds <+:
        (evaluateTokens ts).trace.map Operation.kinds) := by
  intro fails
  refine ⟨?_, ?_, ?_⟩
  · intro value hvalue
    have hdone : finalControl ts = .done value := result_eq_ok_iff.1 hvalue
    rcases alike_or_fails h (by simp [hdone]) with halike | hfails
    · rw [hdone] at halike
      generalize hlast : finalControl us = last at halike
      cases halike with
      | @done _ value' hkind =>
          exact Or.inl ⟨value', result_eq_ok_iff.2 hlast, hkind.symm⟩
    · exact Or.inr hfails
  · intro e he herror
    have hfailed : finalControl ts = .failed e := result_eq_evaluation_iff.1 herror
    have hvalues : ∀ e' : EvaluationError, e'.OfValues → finalControl ts ≠ .failed e' := by
      intro e' he' hfailed'
      cases hfailed.symm.trans hfailed'
      exact he'.not_ofShape he
    rcases alike_or_fails h hvalues with halike | hfails
    · rw [hfailed] at halike
      generalize hlast : finalControl us = last at halike
      cases halike with
      | failed => exact Or.inl (result_eq_evaluation_iff.2 hlast)
    · exact Or.inr hfails
  · cases evaluateTokens_coupled h with
    | alike hkinds _ =>
        change (evaluateTokens ts).trace.map _ = (evaluateTokens us).trace.map _ at hkinds
        rw [hkinds]
        exact Or.inl List.prefix_rfl
    | left _ hprefix => exact Or.inl hprefix
    | right _ hprefix => exact Or.inr hprefix

/-- In `1h / 4 + 3` the sum is refused, since its operands are not of one kind; with zero for four
the quotient in front of it is refused, and the trace is empty. A quotient alone is a duration. -/
theorem kinds_depend_on_shape_quotient :
    let hour : Token := .literal (.duration "1h")
    let quotient (divisor : String) : List Token := [hour, .slash, .literal (.integer divisor)]
    let stop : List Token := [.endOfInput]
    let rest : List Token := [.plus, .literal (.integer "3"), .endOfInput]
    let mixed : EvaluationError := .unsupportedOperandTypes .add .duration .integer
    ((quotient "4" ++ rest).map Token.shape = (quotient "0" ++ rest).map Token.shape ∧
      mixed.OfShape ∧ (evaluateTokens (quotient "4" ++ rest)).result = .error (.evaluation mixed) ∧
      ((evaluateTokens (quotient "0" ++ rest)).result = .error (.evaluation mixed) ∨
        ∃ e : EvaluationError, e.OfValues ∧
          (evaluateTokens (quotient "0" ++ rest)).result = .error (.evaluation e)) ∧
      (evaluateTokens (quotient "0" ++ rest)).result = .error (.evaluation .divisionByZero)) ∧
    ((quotient "4" ++ stop).map Token.shape =
        (quotient "25" ++ stop).map Token.shape ∧
      (evaluateTokens (quotient "4" ++ stop)).result =
        .ok (.duration ⟨900000000000⟩) ∧
      ∃ value, (evaluateTokens (quotient "25" ++ stop)).result = .ok value ∧
        value.kind = .duration) := by
  intro hour quotient stop rest mixed
  have hzero : (evaluateTokens (quotient "0" ++ rest)).result =
      .error (.evaluation .divisionByZero) := rfl
  have hmixed : (evaluateTokens (quotient "4" ++ rest)).result = .error (.evaluation mixed) := rfl
  have hvalue : (evaluateTokens (quotient "4" ++ stop)).result =
      .ok (.duration ⟨900000000000⟩) := rfl
  have hshape : (quotient "4" ++ rest).map Token.shape = (quotient "0" ++ rest).map Token.shape := rfl
  have hshape' : (quotient "4" ++ stop).map Token.shape =
      (quotient "25" ++ stop).map Token.shape := rfl
  obtain ⟨-, hfails, -⟩ := kinds_depend_on_shape hshape
  obtain ⟨hkind, -, -⟩ := kinds_depend_on_shape hshape'
  refine ⟨⟨hshape, trivial, hmixed, hfails mixed trivial hmixed, hzero⟩, hshape', hvalue, ?_⟩
  rcases hkind _ hvalue with hexists | ⟨e, -, herror⟩
  · exact hexists
  · cases herror

end DurationCalculator
