import DurationCalculator.Proofs.Evaluation.Reading

/-!
# Misplaced tokens

An evaluation reports a misplaced token exactly when the tokens in front of it can still be
extended to an expression and the tokens up to it cannot, provided that no value in front of it
is refused (`misplaced_at_first_hopeless_token`). The token decides the error.
-/

set_option autoImplicit false

namespace DurationCalculator

open Evaluation Grammar

/-- The tokens in front of index `i` can be extended to an expression, those up to the token at
`i` cannot. -/
structure FirstHopeless (tokens : List Token) (i : Nat) (token : Token) : Prop where
  getElem? : tokens[i]? = some token
  viable : Viable (tokens.take i)
  noEnd : .endOfInput ∉ tokens.take i
  hopeless : ¬ Viable (tokens.take (i + 1))

/-! ## The first hopeless token -/

section Hopeless

variable {before : List Token} {token : Token} {level : Level} {outer : List Level}

/-- One token more is hopeless exactly when the reader refuses it and it is not the end of the
input behind an expression. -/
theorem viable_append_singleton_iff (hread : readFrom Position.start before = some (level, outer)) :
    Viable (before ++ [token]) ↔
      (level.step token outer).isSome ∨
        token = .endOfInput ∧ (Position.expression? (level, outer)).isSome := by
  by_cases hend : token = .endOfInput
  · subst hend
    have hstep : level.step .endOfInput outer = none := by
      rcases level with ⟨b, _ | sign⟩ | s <;> rfl
    have hparse : parse before = Position.expression? (level, outer) := by
      rw [parse, hread]
      rfl
    rw [viable_append_endOfInput_iff, hstep, ← hparse]
    simp [Option.isSome_iff_exists, parse_eq_some_iff]
  · have hmem : .endOfInput ∉ before ++ [token] := by
      have hbefore := endOfInput_notMem_of_readFrom hread
      simp [hbefore, Ne.symm hend]
    rw [viable_iff_isSome_readFrom hmem, readFrom_append, hread]
    cases hstep : level.step token outer <;> simp [readFrom, hstep, hend]

/-- Behind tokens that are still running, a hopeless token is reported. -/
theorem finalControl_of_hopeless {phase : Phase} {stack : List Context}
    (hrun : finalControl before = .running phase stack)
    (hhopeless : ¬ Viable (before ++ [token])) (rest : List Token) :
    ∃ e, token.misplaced? = some e ∧ finalControl (before ++ token :: rest) = .failed e := by
  obtain ⟨⟨level, outer⟩, hread, hphase, hlen⟩ := readFrom_of_running follows_start hrun
  rw [viable_append_singleton_iff hread, not_or] at hhopeless
  -- neither does the reader take the token, nor is it a proper end
  obtain ⟨hstep, hend⟩ := hhopeless
  obtain ⟨e, he, hnext⟩ := next_of_misplaced hphase hlen
    (Option.not_isSome_iff_eq_none.1 hstep) hend
  refine ⟨e, he, ?_⟩
  rw [finalControl_append, hrun]
  change (run .endOfInput (stepPhase .endOfInput stack token phase).next rest).control = _
  rw [hnext]
  cases rest <;> rfl

/-- A reported token is hopeless, and what stands in front of it is not. -/
theorem exists_hopeless_of_finalControl {tokens : List Token} {e : EvaluationError}
    (he : e.Grammatical) (h : finalControl tokens = .failed e) :
    ∃ before token rest, tokens = before ++ token :: rest ∧
      (∃ phase stack, finalControl before = .running phase stack) ∧ Viable before ∧
      .endOfInput ∉ before ∧ ¬ Viable (before ++ [token]) ∧ token.misplaced? = some e := by
  obtain ⟨before, token, rest, phase, stack, rfl, hbefore, hlast⟩ := exists_last_step h nofun
  obtain ⟨⟨level, outer⟩, hread, hphase, hlen⟩ := readFrom_of_running follows_start hbefore
  have hmem := endOfInput_notMem_of_readFrom hread
  have hviable : Viable before := (viable_iff_isSome_readFrom hmem).2 (by rw [hread]; rfl)
  have hstep : level.step token outer = none := by
    cases hstep : level.step token outer with
    | none => rfl
    | some next =>
        -- a token that is taken keeps the machine running, or a value is refused
        rcases next_of_step_eq_some hphase hlen hstep with hnext | ⟨e', hnext, he'⟩
        · rw [hlast] at hnext
          cases hnext
        · cases hlast.symm.trans hnext
          exact absurd he he'
  -- behind an expression the end of the input gives a value, not an error
  have hend : ¬ (token = .endOfInput ∧ (Position.expression? (level, outer)).isSome) := by
    rintro ⟨rfl, hsome⟩
    obtain ⟨value, hnext⟩ := next_endOfInput hphase hlen hsome
    cases hlast.symm.trans hnext
  obtain ⟨e', he', hnext⟩ := next_of_misplaced hphase hlen hstep hend
  cases hlast.symm.trans hnext
  refine ⟨before, token, rest, rfl, ⟨phase, stack, hbefore⟩, hviable, hmem, ?_, he'⟩
  rw [viable_append_singleton_iff hread, hstep]
  simpa using hend

end Hopeless

/-- Among tokens of which none in front is refused, the first hopeless one is reported; and what
is reported as misplaced is the first hopeless token. -/
theorem misplaced_at_first_hopeless_token (tokens : List Token) :
    (∀ i token, FirstHopeless tokens i token → RunsOut (tokens.take i) →
      ∃ e, token.misplaced? = some e ∧
        (evaluateTokens tokens).result = .error (.evaluation e)) ∧
    (∀ e : EvaluationError, e.Grammatical →
      (evaluateTokens tokens).result = .error (.evaluation e) →
      ∃ i token, FirstHopeless tokens i token ∧ RunsOut (tokens.take i) ∧
        token.misplaced? = some e) := by
  constructor
  · intro i token h hrunsOut
    obtain ⟨phase, stack, hrun⟩ := runsOut_iff.1 hrunsOut
    have htake : tokens.take (i + 1) = tokens.take i ++ [token] := by
      rw [List.take_add_one, h.getElem?]
      rfl
    have hsplit : tokens = tokens.take i ++ token :: tokens.drop (i + 1) := by
      rw [← List.singleton_append, ← List.append_assoc, ← htake, List.take_append_drop]
    obtain ⟨e, he, hcontrol⟩ :=
      finalControl_of_hopeless hrun (htake ▸ h.hopeless) (tokens.drop (i + 1))
    refine ⟨e, he, result_eq_evaluation_iff.2 ?_⟩
    rw [hsplit]
    exact hcontrol
  · intro e he h
    obtain ⟨before, token, rest, rfl, hrun, hviable, hmem, hhopeless, htoken⟩ :=
      exists_hopeless_of_finalControl he (result_eq_evaluation_iff.1 h)
    have hbefore : (before ++ token :: rest).take before.length = before :=
      List.take_left
    have hupTo : (before ++ token :: rest).take (before.length + 1) = before ++ [token] := by
      rw [List.take_add_one, hbefore]
      simp
    refine ⟨before.length, token, ⟨?_, ?_, ?_, ?_⟩, ?_, htoken⟩
    · simp
    · rwa [hbefore]
    · rwa [hbefore]
    · rwa [hupTo]
    · rw [hbefore]
      exact runsOut_iff.2 hrun

/-- In `(1h + - * )` the star is the first hopeless token. -/
theorem misplaced_star_behind_sign :
    let tokens : List Token := [.leftParenthesis, .literal (.duration "1h"), .plus, .minus, .star,
      .rightParenthesis, .endOfInput]
    FirstHopeless tokens 4 .star ∧ RunsOut (tokens.take 4) ∧
      (evaluateTokens tokens).result = .error (.evaluation (.unexpectedToken .star)) ∧
      ∃ i token, FirstHopeless tokens i token ∧ RunsOut (tokens.take i) ∧
        token.misplaced? = some (.unexpectedToken .star) := by
  intro tokens
  have hhopeless : FirstHopeless tokens 4 .star := by
    refine ⟨rfl, ?_, by decide, ?_⟩
    · exact (viable_iff_isSome_readFrom (by decide)).2 rfl
    · rw [viable_iff_isSome_readFrom (by decide)]
      exact Bool.false_ne_true
  have hrunsOut : RunsOut (tokens.take 4) := ⟨4, 4, rfl⟩
  obtain ⟨hreported, hconverse⟩ := misplaced_at_first_hopeless_token tokens
  obtain ⟨e, he, hresult⟩ := hreported 4 .star hhopeless hrunsOut
  obtain rfl : EvaluationError.unexpectedToken .star = e := Option.some.inj he
  exact ⟨hhopeless, hrunsOut, hresult, hconverse (.unexpectedToken .star) trivial hresult⟩

end DurationCalculator
