import DurationCalculator.Calculation
import DurationCalculator.Proofs.Evaluation.Moves
import DurationCalculator.Proofs.Literal.Whole
import DurationCalculator.Proofs.Token.ScanErrors
import DurationCalculator.Proofs.Token.Separators

/-!
# Points and commas are interchangeable

A pointed text is worth what the text is worth. The value of a literal does not depend on which
separator it has (`Literal.value_pointed`), so the machine performs the same operations over pointed
tokens, step by step, and fails where it failed (`stepPhase_pointed`, `run_pointed`). Texts that
differ in the choice of their separators alone have a pointed text in common, and with it their
values, traces and errors, up to that choice in the characters and literals that the errors report.
What each of them reports is what stands in it at that place (`takenFrom_scan`,
`exists_hasLiteralAt`, `separators_interchangeable`).
-/

set_option autoImplicit false

namespace DurationCalculator

/-! ## Errors -/

/-- The error with a pointed literal. -/
def LiteralError.pointed (e : LiteralError) : LiteralError := ⟨e.fault, withPoints e.literal⟩

/-- The error with pointed texts. -/
def EvaluationError.pointed : EvaluationError → EvaluationError
  | unexpectedToken found => unexpectedToken found.pointed
  | literal e => literal e.pointed
  | e => e

/-- The error with pointed characters and texts. -/
def Error.pointed : Error → Error
  | scan e => scan e.pointed
  | evaluation e => evaluation e.pointed
  | e => e

/-! ## Literals -/

section Literals

variable (text : List Char)

theorem any_isSeparator_map_withPoint :
    (text.map withPoint).any DurationLiteral.isSeparator = text.any DurationLiteral.isSeparator := by
  rw [List.any_map]
  congr 1
  funext c
  exact isSeparator_withPoint c

/-- The reader of fractions points the text itself. -/
theorem readFractional_map_withPoint :
    DurationLiteral.readFractional (text.map withPoint) = DurationLiteral.readFractional text := by
  have htwice : (text.map withPoint).map withPoint = text.map withPoint := by
    rw [List.map_map]
    congr 1
    funext c
    exact apply_withPoint rfl c
  have hpoint : (fun c => if c = ',' then '.' else c) = withPoint := rfl
  rw [DurationLiteral.readFractional, DurationLiteral.readFractional, hpoint, htwice]

theorem read_map_withPoint :
    DurationLiteral.read (text.map withPoint) = DurationLiteral.read text := by
  rw [DurationLiteral.read, DurationLiteral.read, any_isSeparator_map_withPoint]
  split
  next => exact readFractional_map_withPoint text
  next hwhole =>
    rw [map_withPoint_of_not_isSeparator]
    intro c hc
    apply Bool.eq_false_iff.2
    intro hseparator
    exact hwhole (List.any_eq_true.2 ⟨c, hc, hseparator⟩)

theorem isNumeral_map_withPoint : Decimal.isNumeral (text.map withPoint) = Decimal.isNumeral text := by
  have hdigit : Char.isDigit ∘ withPoint = Char.isDigit := funext isDigit_withPoint
  rw [Decimal.isNumeral, Decimal.isNumeral, List.isEmpty_map, List.all_map, hdigit]

theorem splitSign_map_withPoint :
    Decimal.splitSign (text.map withPoint) =
      ((Decimal.splitSign text).1, (Decimal.splitSign text).2.map withPoint) := by
  cases text with
  | nil => rfl
  | cons c text =>
      by_cases hplus : c = '+'
      · rw [hplus]
        rfl
      by_cases hminus : c = '-'
      · rw [hminus]
        rfl
      have hplus' : withPoint c ≠ '+' := (withPoint_eq_iff rfl).not.2 hplus
      have hminus' : withPoint c ≠ '-' := (withPoint_eq_iff rfl).not.2 hminus
      simp [Decimal.splitSign, hplus, hminus, hplus', hminus']

/-- An integer has no separator, and a text with one is no integer. -/
theorem readInteger_map_withPoint :
    IntegerLiteral.read? (text.map withPoint) = IntegerLiteral.read? text := by
  rw [IntegerLiteral.read?, IntegerLiteral.read?, splitSign_map_withPoint]
  simp only [isNumeral_map_withPoint]
  split
  next hnumeral =>
    obtain ⟨-, hdigits⟩ := isNumeral_iff.1 hnumeral
    rw [map_withPoint_of_not_isSeparator]
    intro c hc
    exact DurationLiteral.isSeparator_of_isDigit (hdigits c hc)
  next => rfl

end Literals

/-- A pointed literal has the value of the literal, or its fault. -/
theorem Literal.value_pointed (l : Literal) :
    l.pointed.value = l.value.mapError EvaluationError.pointed := by
  cases l with
  | duration text =>
      simp only [Literal.pointed, Literal.value, DurationLiteral.parse, withPoints,
        String.toList_ofList, read_map_withPoint]
      cases DurationLiteral.read text.toList <;> rfl
  | integer text =>
      simp only [Literal.pointed, Literal.value, IntegerLiteral.parse, withPoints,
        String.toList_ofList, readInteger_map_withPoint]
      cases IntegerLiteral.read? text.toList <;> rfl

/-- An operation fails with no text in its error. -/
theorem EvaluationError.OfOperation.pointed_eq {e : EvaluationError} (h : e.OfOperation) :
    e.pointed = e := by
  cases e <;> first | exact h.elim | rfl

namespace Evaluation

/-! ## Steps -/

/-- The control with pointed texts in its error. -/
def Control.pointed : Control → Control
  | failed e => failed e.pointed
  | control => control

/-- The step with pointed texts in its error. -/
def Step.pointed (step : Step) : Step := ⟨step.operation, step.next.pointed⟩

section Steps

variable (outer : Terminator) (context : Context) (value : Value) (stack : List Context)
  (token : Token)

/-- A value is delivered without texts. -/
theorem deliver_pointed : (deliver context value stack).pointed = deliver context value stack := by
  have hnext : (deliver context value stack).next.pointed = (deliver context value stack).next := by
    rcases next_deliver stack context value with ⟨left, hnext⟩ | ⟨e, hnext, he⟩
    · rw [hnext]
      rfl
    · rw [hnext, Control.pointed, he.pointed_eq]
  rw [Step.pointed, hnext]

theorem close_pointed : (close value stack).pointed = close value stack := by
  cases stack with
  | nil => rfl
  | cons context stack => exact deliver_pointed context value stack

theorem readOperand_pointed :
    readOperand context stack token.pointed = (readOperand context stack token).pointed := by
  cases token with
  | literal l =>
      simp only [Token.pointed, readOperand, l.value_pointed]
      cases l.value with
      | error e => rfl
      | ok value => exact (deliver_pointed context value stack).symm
  | _ => rfl

theorem readSigned_pointed (pending : Option (Value × Operator)) :
    readSigned pending stack token.pointed = (readSigned pending stack token).pointed := by
  cases token with
  | plus => rfl
  | minus => rfl
  | literal l => exact readOperand_pointed ⟨pending, false⟩ stack (.literal l)
  | _ => rfl

theorem pointed_eq_terminator_iff (stop : Terminator) :
    token.pointed = stop.token ↔ token = stop.token := by
  cases token with
  | literal l => cases stop <;> simp [Token.pointed, Terminator.token]
  | _ => rfl

theorem operator?_pointed : token.pointed.operator? = token.operator? := by
  cases token <;> rfl

/-- The machine takes the same step on a pointed token. -/
theorem stepPhase_pointed (phase : Phase) :
    stepPhase outer stack token.pointed phase = (stepPhase outer stack token phase).pointed := by
  cases phase with
  | start =>
      simp only [stepPhase, pointed_eq_terminator_iff]
      split
      · exact (close_pointed _ stack).symm
      · exact readSigned_pointed stack token none
  | operand left =>
      simp only [stepPhase, pointed_eq_terminator_iff, operator?_pointed]
      split
      · exact (close_pointed left stack).symm
      · cases token.operator? with
        | some op => rfl
        | none => exact readSigned_pointed stack token (some (left, .add))
  | operator left op =>
      simp only [stepPhase, pointed_eq_terminator_iff]
      split
      · exact (close_pointed left stack).symm
      · exact readSigned_pointed stack token (some (left, op))
  | sign context => exact readOperand_pointed context stack token

end Steps

/-! ## Runs -/

/-- The run with pointed texts in its error. -/
def Run.pointed (run : Run) : Run := ⟨run.trace, run.consumed, run.control.pointed⟩

/-- The machine runs over pointed tokens as over the tokens. -/
theorem run_pointed (outer : Terminator) (tokens : List Token) (control : Control) :
    run outer control.pointed (tokens.map Token.pointed) = (run outer control tokens).pointed := by
  induction tokens generalizing control with
  | nil =>
      rw [List.map_nil, run_nil, run_nil]
      rfl
  | cons token rest ih =>
      cases control with
      | running phase stack =>
          simp only [List.map_cons, Control.pointed, run, stepPhase_pointed]
          rw [Step.pointed, ih]
          rfl
      | done value => rfl
      | failed e => rfl

theorem result_pointed (cursor length : Nat) (control : Control) :
    control.pointed.result cursor length =
      (control.result cursor length).mapError Error.pointed := by
  cases control <;> rfl

end Evaluation

/-! ## Evaluations -/

/-- The outcome with pointed texts in its error. -/
def Outcome.pointed (outcome : Outcome) : Outcome :=
  ⟨outcome.result.mapError Error.pointed, outcome.trace⟩

theorem evaluateTokens_pointed (tokens : List Token) :
    evaluateTokens (tokens.map Token.pointed) = (evaluateTokens tokens).pointed := by
  have hrun : Evaluation.run .endOfInput (.running .start []) (tokens.map Token.pointed) =
      (Evaluation.run .endOfInput (.running .start []) tokens).pointed :=
    Evaluation.run_pointed .endOfInput tokens (.running .start [])
  simp only [evaluateTokens, evaluateUntil, List.drop_zero, List.length_map, hrun]
  simp only [Outcome.pointed, Evaluation.Run.pointed, Evaluation.result_pointed]

/-- A pointed text has the outcome of the text. -/
theorem evaluate_pointed (source : String) :
    evaluate (withPoints source) = (evaluate source).pointed := by
  rw [evaluate, evaluate, scan_pointed]
  cases scan source with
  | error e => rfl
  | ok tokens => exact evaluateTokens_pointed tokens

/-! ## What is reported -/

/-- The character stands at a byte of the text. -/
def StandsAt (source : String) (position : Nat) (c : Char) : Prop :=
  ∃ before rest, source.toList = before ++ c :: rest ∧ position = Scan.byteLength before

/-- The error reports what stands in the text. -/
def ScanError.TakenFrom (source : String) : ScanError → Prop
  | unexpectedCharacter c position => StandsAt source position c
  | expectedDigit c position => StandsAt source position c
  | invalidUnitCharacter _ c position => StandsAt source position c
  | unexpectedEndOfInput position => position = Scan.byteLength source.toList

/-- The tokens have the texts that stand in the text, with nothing but spaces between them. -/
def TakenFrom (source : String) : Except ScanError (List Token) → Prop
  | .ok tokens => tokens.flatMap Token.chars = source.toList.filter (· ≠ ' ')
  | .error e => e.TakenFrom source

theorem takenFrom_rejection {source : String} {position : Nat} {c : Char}
    (h : StandsAt source position c) (phase : Scan.Phase) :
    (phase.rejection c position).TakenFrom source := by
  cases phase <;> exact h

/-- The tokens of a text are taken from the text, and so is the error that refuses it. -/
theorem takenFrom_scan (source : String) : TakenFrom source (scan source) := by
  cases hscan : scan source with
  | ok tokens =>
      obtain ⟨words, rfl, hspells⟩ := scan_eq_ok_iff.1 hscan
      rw [TakenFrom, hspells.filter_eq, List.flatMap_append]
      exact List.append_nil _
  | error e =>
      rw [scan] at hscan
      cases hread : Scan.read 0 .blank source.toList with
      | ok now =>
          rw [hread] at hscan
          cases hfinish : Scan.finish (Scan.byteLength source.toList) now.2 with
          | ok tokens =>
              simp only [hfinish] at hscan
              cases hscan
          | error e' =>
              simp only [hfinish] at hscan
              cases hscan
              rw [Scan.eq_of_finish_eq_error hfinish]
              rfl
      | error e' =>
          rw [hread] at hscan
          cases hscan
          -- the step that fails does so on the character behind what has been read
          obtain ⟨before, c, rest, now, hsplit, -, hstep⟩ := Scan.exists_failing_step hread
          rw [Scan.eq_rejection_of_step hstep]
          exact takenFrom_rejection ⟨before, rest, hsplit, Nat.zero_add _⟩ now.2

/-- The literal is the token of the text with the given index. -/
def HasLiteralAt (source : String) (index : Nat) (literal : String) : Prop :=
  ∃ tokens l, scan source = .ok tokens ∧ tokens[index]? = some (.literal l) ∧ l.text = literal

namespace Evaluation

section Literals

variable {outer : Terminator} {phase : Phase} {stack : List Context} {token : Token} {step : Step}
  {e : LiteralError}

/-- A delivery reports no literal. -/
theorem Delivery.next_ne_literal {context : Context} {value : Value}
    (h : Delivery context value stack step) : step.next ≠ .failed (.literal e) := by
  cases h with
  | refused he =>
      intro hnext
      cases hnext
      exact he
  | first _ _ => nofun
  | joined _ _ _ => nofun

/-- A step that reports a literal has read it. -/
theorem literal_of_move (h : Move outer phase stack token step)
    (hnext : step.next = .failed (.literal e)) : ∃ l, token = .literal l ∧ l.text = e.literal := by
  cases h with
  | misplaced _ _ hmisplaced =>
      -- a misplaced token is reported as it is
      cases hnext
      cases token <;> cases hmisplaced
  | @unreadable l _ _ _ hvalue =>
      cases hnext
      obtain ⟨fault, hfault⟩ := l.exists_fault_of_value hvalue
      cases hfault
      exact ⟨l, rfl, rfl⟩
  | closed _ _ _ => exact absurd hnext (deliver_delivery _ _ _).next_ne_literal
  | literal _ _ _ => exact absurd hnext (deliver_delivery _ _ _).next_ne_literal
  | _ => cases hnext

end Literals

theorem running_of_pointed {control : Control} {phase : Phase} {stack : List Context}
    (h : control.pointed = .running phase stack) : control = .running phase stack := by
  cases control with
  | failed e => cases h
  | _ => exact h

theorem failed_of_pointed {control : Control} {e : EvaluationError}
    (h : control.pointed = .failed e) : ∃ e', control = .failed e' := by
  cases control with
  | failed e' => exact ⟨e', rfl⟩
  | _ => cases h

/-- Over tokens that are the same once pointed, two machines fail at the same token. -/
theorem exists_failing_index {ts us : List Token} {e e' : EvaluationError}
    (h : ts.map Token.pointed = us.map Token.pointed) (hts : finalControl ts = .failed e)
    (hus : finalControl us = .failed e') :
    ∃ (index : Nat) (token token' : Token) (phase : Phase) (stack : List Context),
      ts[index]? = some token ∧ us[index]? = some token' ∧
      (stepPhase .endOfInput stack token phase).next = .failed e ∧
      (stepPhase .endOfInput stack token' phase).next = .failed e' := by
  obtain ⟨before, token, rest, phase, stack, rfl, hbefore, hstep⟩ := exists_last_step hts nofun
  rw [List.map_append, List.map_cons] at h
  obtain ⟨before', others, rfl, hsame, hothers⟩ := List.map_eq_append_iff.1 h.symm
  obtain ⟨token', rest', rfl, htoken, -⟩ := List.map_eq_cons_iff.1 hothers
  have hlength : before'.length = before.length := by
    simpa using congrArg List.length hsame
  -- in front of the token both machines are at the same place
  have hbefore' : (run .endOfInput (.running .start []) before').control = .running phase stack := by
    have hrun := run_pointed .endOfInput before (.running .start [])
    have hrun' := run_pointed .endOfInput before' (.running .start [])
    rw [hsame, hrun] at hrun'
    have hcontrol : (run .endOfInput (.running .start []) before).control.pointed =
        (run .endOfInput (.running .start []) before').control.pointed :=
      congrArg Run.control hrun'
    rw [hbefore] at hcontrol
    exact running_of_pointed hcontrol.symm
  have hstep' : (stepPhase .endOfInput stack token' phase).next = .failed e' := by
    have hpointed := stepPhase_pointed .endOfInput stack token' phase
    rw [htoken, stepPhase_pointed] at hpointed
    have hnext : (stepPhase .endOfInput stack token phase).next.pointed =
        (stepPhase .endOfInput stack token' phase).next.pointed := congrArg Step.next hpointed
    rw [hstep] at hnext
    obtain ⟨e'', hfailed⟩ := failed_of_pointed hnext.symm
    rw [finalControl, control_run_append, hbefore'] at hus
    change (run _ (stepPhase .endOfInput stack token' phase).next rest').control = _ at hus
    rw [hfailed] at hus ⊢
    rw [← hus]
    cases rest' <;> rfl
  refine ⟨before.length, token, token', phase, stack, ?_, ?_, hstep, hstep'⟩
  · simp
  · simp [← hlength]

end Evaluation

/-- A literal that is reported is the same token of both texts. -/
theorem exists_hasLiteralAt {s s' : String} {e e' : LiteralError}
    (h : withPoints s = withPoints s')
    (he : (evaluate s).result = .error (.evaluation (.literal e)))
    (he' : (evaluate s').result = .error (.evaluation (.literal e'))) :
    ∃ index, HasLiteralAt s index e.literal ∧ HasLiteralAt s' index e'.literal := by
  have hscan : recast ScanError.pointed (List.map Token.pointed) (scan s) =
      recast ScanError.pointed (List.map Token.pointed) (scan s') := by
    rw [← scan_pointed, ← scan_pointed, h]
  rw [evaluate] at he he'
  cases hs : scan s with
  | error fault =>
      rw [hs] at he
      cases he
  | ok tokens =>
      cases hs' : scan s' with
      | error fault =>
          rw [hs'] at he'
          cases he'
      | ok tokens' =>
          rw [hs] at he
          rw [hs'] at he'
          rw [hs, hs'] at hscan
          obtain ⟨index, token, token', phase, stack, htoken, htoken', hstep, hstep'⟩ :=
            Evaluation.exists_failing_index (Except.ok.inj hscan)
              (Evaluation.result_eq_evaluation_iff.1 he)
              (Evaluation.result_eq_evaluation_iff.1 he')
          have hmove := Evaluation.stepPhase_move .endOfInput phase stack
          obtain ⟨l, rfl, hl⟩ := Evaluation.literal_of_move (hmove token) hstep
          obtain ⟨l', rfl, hl'⟩ := Evaluation.literal_of_move (hmove token') hstep'
          exact ⟨index, ⟨tokens, l, hs, htoken, hl⟩, ⟨tokens', l', hs', htoken', hl'⟩⟩

/-- Points and commas can be put for each other, in any places of a text. The tokens are the same
up to the separators in their texts, which are those that now stand there; or the error is the
same, on the character that now stands at the same byte. Evaluation gives the same value, or the
same error up to the separators in the character or in the literal that it reports; and that
literal is the same token of both texts. The traces are equal. -/
theorem separators_interchangeable {s s' : String}
    (h : List.Forall₂ Interchangeable s.toList s'.toList) :
    (recast ScanError.pointed (List.map Token.pointed) (scan s) =
        recast ScanError.pointed (List.map Token.pointed) (scan s') ∧
      TakenFrom s' (scan s')) ∧
    (evaluate s).result.mapError Error.pointed = (evaluate s').result.mapError Error.pointed ∧
    (∀ e e' : LiteralError, (evaluate s).result = .error (.evaluation (.literal e)) →
      (evaluate s').result = .error (.evaluation (.literal e')) →
      ∃ index, HasLiteralAt s index e.literal ∧ HasLiteralAt s' index e'.literal) ∧
    (evaluate s).trace = (evaluate s').trace := by
  have hpointed : withPoints s = withPoints s' :=
    congrArg String.ofList (map_withPoint_eq_map_iff.2 h)
  have houtcome : (evaluate s).pointed = (evaluate s').pointed := by
    rw [← evaluate_pointed, ← evaluate_pointed, hpointed]
  have hresult := congrArg Outcome.result houtcome
  have htrace := congrArg Outcome.trace houtcome
  refine ⟨⟨?_, takenFrom_scan s'⟩, hresult, ?_, htrace⟩
  · rw [← scan_pointed, ← scan_pointed, hpointed]
  · intro e e' he he'
    exact exists_hasLiteralAt hpointed he he'

/-- A product with its trace, a second separator that the scanner reports, and a fraction of
nanoseconds, whose literal is reported. -/
theorem separators_interchangeable_misplaced :
    (List.Forall₂ Interchangeable "1.5h*2".toList "1,5h*2".toList ∧
      (evaluate "1.5h*2").result.mapError Error.pointed =
        (evaluate "1,5h*2").result.mapError Error.pointed ∧
      (evaluate "1.5h*2").trace = (evaluate "1,5h*2").trace ∧
      (evaluate "1,5h*2").result = .ok (.duration ⟨10800000000000⟩)) ∧
    (List.Forall₂ Interchangeable "1.5h 2,5.m".toList "1,5h 2.5,m".toList ∧
      recast ScanError.pointed (List.map Token.pointed) (scan "1.5h 2,5.m") =
        recast ScanError.pointed (List.map Token.pointed) (scan "1,5h 2.5,m") ∧
      scan "1.5h 2,5.m" = .error (.expectedDigit '.' 8) ∧
      scan "1,5h 2.5,m" = .error (.expectedDigit ',' 8) ∧
      StandsAt "1,5h 2.5,m" 8 ',') ∧
    (List.Forall₂ Interchangeable "(2.5ns)".toList "(2,5ns)".toList ∧
      (evaluate "(2.5ns)").result =
        .error (.evaluation (.literal ⟨.fractionalNanoseconds, "2.5ns"⟩)) ∧
      (evaluate "(2,5ns)").result =
        .error (.evaluation (.literal ⟨.fractionalNanoseconds, "2,5ns"⟩)) ∧
      ∃ index, HasLiteralAt "(2.5ns)" index "2.5ns" ∧ HasLiteralAt "(2,5ns)" index "2,5ns") := by
  have hproduct : List.Forall₂ Interchangeable "1.5h*2".toList "1,5h*2".toList :=
    map_withPoint_eq_map_iff.1 (by decide)
  have hrepeated : List.Forall₂ Interchangeable "1.5h 2,5.m".toList "1,5h 2.5,m".toList :=
    map_withPoint_eq_map_iff.1 (by decide)
  have hfraction : List.Forall₂ Interchangeable "(2.5ns)".toList "(2,5ns)".toList :=
    map_withPoint_eq_map_iff.1 (by decide)
  have hvalue : (evaluate "1,5h*2").result = .ok (.duration ⟨10800000000000⟩) := by
    decide +kernel
  have hcomma : scan "1,5h 2.5,m" = .error (.expectedDigit ',' 8) := rfl
  obtain ⟨-, hresult, -, htrace⟩ := separators_interchangeable hproduct
  obtain ⟨⟨hscan, htaken⟩, -⟩ := separators_interchangeable hrepeated
  obtain ⟨-, -, hliteral, -⟩ := separators_interchangeable hfraction
  rw [hcomma] at htaken
  exact ⟨⟨hproduct, hresult, htrace, hvalue⟩, ⟨hrepeated, hscan, rfl, hcomma, htaken⟩,
    ⟨hfraction, rfl, rfl, hliteral _ _ rfl rfl⟩⟩

end DurationCalculator
