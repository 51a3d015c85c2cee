import DurationCalculator.Token.Scan

/-!
# Transitions of the scanner

The steps of the scanner that succeed, one rule for each way to go on, and without the positions,
which only errors need. A step succeeds exactly by these rules (`step_eq_ok_iff`), and a text has
tokens exactly when the rules lead to its end (`tokensFrom_eq_ok_iff`). What is accepted is then
a matter of the rules alone.
-/

set_option autoImplicit false

namespace DurationCalculator.Scan

/-- In a phase, a character completes tokens and leads to the next phase. -/
inductive Transition : Phase → Char → List Token → Phase → Prop where
  | space : Transition .blank ' ' [] .blank
  | symbol {c : Char} {token : Token} : symbol? c = some token →
      Transition .blank c [token] .blank
  | number {c : Char} : c.isDigit → Transition .blank c [] (.number (String.singleton c) false)
  | digit {text : String} {separated : Bool} {c : Char} : c.isDigit →
      Transition (.number text separated) c [] (.number (text.push c) separated)
  | separator {text : String} {c : Char} : DurationLiteral.isSeparator c →
      Transition (.number text false) c [] (.number (text.push c) true)
  | unit {text : String} {separated : Bool} {c : Char} : c = 'h' ∨ c = 's' →
      Transition (.number text separated) c [.literal (.duration (text.push c))] .blank
  | minutes {text : String} {separated : Bool} :
      Transition (.number text separated) 'm' [] (.minutes (text.push 'm'))
  | halfUnit {text : String} {separated : Bool} {c : Char} : c = 'u' ∨ c = 'n' →
      Transition (.number text separated) c [] (.halfUnit (text.push c) c)
  /-- The character behind an integer starts something new. -/
  | endInteger {text : String} {c : Char} {tokens : List Token} {next : Phase} : ¬c.isDigit →
      Transition .blank c tokens next →
      Transition (.number text false) c (.literal (.integer text) :: tokens) next
  /-- The character behind minutes starts something new. -/
  | endMinutes {text : String} {c : Char} {tokens : List Token} {next : Phase} :
      Transition .blank c tokens next →
      Transition (.minutes text) c (.literal (.duration text) :: tokens) next
  | milliseconds {text : String} :
      Transition (.minutes text) 's' [.literal (.duration (text.push 's'))] .blank
  | endUnit {text : String} {unit : Char} :
      Transition (.halfUnit text unit) 's' [.literal (.duration (text.push 's'))] .blank

/-- A symbol is not a digit. -/
theorem not_isDigit_of_symbol? {c : Char} {token : Token} (h : symbol? c = some token) :
    ¬c.isDigit := by
  unfold symbol? at h
  split at h <;> cases h <;> decide

/-! ## Steps follow the rules -/

section Rules

variable {position : Nat} {c : Char} {now : Step}

theorem transition_of_begin (h : begin position c = .ok now) :
    Transition .blank c now.1 now.2 := by
  unfold begin at h
  split at h
  next hc =>
    cases h
    subst hc
    exact .space
  next =>
  split at h
  next hc =>
    cases h
    exact .number hc
  next =>
    cases hsymbol : symbol? c with
    | none =>
        rw [hsymbol] at h
        cases h
    | some token =>
        rw [hsymbol] at h
        cases h
        exact .symbol hsymbol

theorem transition_of_continueNumber {text : String} {separated : Bool}
    (h : continueNumber text separated position c = .ok now) :
    Transition (.number text separated) c now.1 now.2 := by
  simp only [continueNumber] at h
  split at h
  next hc =>
    cases h
    exact .digit hc
  next hdigit =>
  split at h
  next hc =>
    cases h
    exact .unit hc
  next =>
  split at h
  next hc =>
    cases h
    subst hc
    exact .minutes
  next =>
  split at h
  next hc =>
    cases h
    exact .halfUnit hc
  next =>
  split at h
  next => cases h
  next hwhole =>
  -- only digits without a separator can be an integer
  obtain rfl : separated = false := Bool.eq_false_iff.2 hwhole
  split at h
  next hc =>
    cases h
    exact .separator hc
  next =>
  split at h
  next hc =>
    cases h
    subst hc
    exact .endInteger hdigit .space
  next =>
    cases hsymbol : symbol? c with
    | none =>
        rw [hsymbol] at h
        cases h
    | some token =>
        rw [hsymbol] at h
        cases h
        exact .endInteger hdigit (.symbol hsymbol)

theorem transition_of_step {phase : Phase} (h : step position c phase = .ok now) :
    Transition phase c now.1 now.2 := by
  cases phase with
  | blank => exact transition_of_begin h
  | number text separated => exact transition_of_continueNumber h
  | minutes text =>
      rw [step] at h
      split at h
      next hc =>
        cases h
        subst hc
        exact .milliseconds
      next =>
        -- the minutes end in front of `c`
        cases hbegin : begin position c with
        | error e =>
            rw [hbegin] at h
            cases h
        | ok started =>
            rw [hbegin] at h
            cases h
            exact .endMinutes (transition_of_begin hbegin)
  | halfUnit text unit =>
      rw [step] at h
      split at h
      next hc =>
        cases h
        subst hc
        exact .endUnit
      next => cases h

end Rules

/-! ## The rules are steps -/

/-- No rule starts with the `s` that makes milliseconds of minutes. -/
theorem Transition.ne_of_blank {c : Char} {tokens : List Token} {next : Phase}
    (h : Transition .blank c tokens next) : c ≠ 's' := by
  rintro rfl
  cases h with
  | symbol hsymbol => cases hsymbol
  | number hdigit => exact absurd hdigit (by decide)

theorem Transition.step_eq {phase next : Phase} {c : Char} {tokens : List Token}
    (h : Transition phase c tokens next) (position : Nat) :
    step position c phase = .ok (tokens, next) := by
  induction h with
  | space => rfl
  | symbol hsymbol =>
      unfold symbol? at hsymbol
      split at hsymbol <;> cases hsymbol <;> rfl
  | @number c hdigit =>
      have hspace : c ≠ ' ' := by
        rintro rfl
        exact absurd hdigit (by decide)
      rw [step, begin, if_neg hspace, if_pos hdigit]
  | digit hdigit => rw [step, continueNumber, if_pos hdigit]
  | @separator text c hseparator =>
      have hc : c = '.' ∨ c = ',' := by simpa [DurationLiteral.isSeparator] using hseparator
      rcases hc with rfl | rfl <;> rfl
  | unit hc => rcases hc with rfl | rfl <;> rfl
  | minutes => rfl
  | halfUnit hc => rcases hc with rfl | rfl <;> rfl
  | endInteger hdigit hblank _ =>
      cases hblank with
      | space => rfl
      | number hnumber => exact absurd hnumber hdigit
      | symbol hsymbol =>
          unfold symbol? at hsymbol
          split at hsymbol <;> cases hsymbol <;> rfl
  | endMinutes hblank ih =>
      rw [step] at ih
      rw [step, if_neg hblank.ne_of_blank, ih]
      rfl
  | milliseconds => rfl
  | endUnit => rfl

/-- A step succeeds exactly by the rules, wherever the character stands. -/
theorem step_eq_ok_iff {position : Nat} {phase next : Phase} {c : Char} {tokens : List Token} :
    step position c phase = .ok (tokens, next) ↔ Transition phase c tokens next :=
  ⟨transition_of_step, fun h => h.step_eq position⟩

/-! ## Runs -/

/-- The tokens of a text that starts at byte `position` in the given phase, with the token for the
end. -/
def tokensFrom (position : Nat) (phase : Phase) (text : List Char) :
    Except ScanError (List Token) :=
  match read position phase text with
  | .error e => .error e
  | .ok (tokens, last) => (finish (position + byteLength text) last).map (tokens ++ ·)

theorem scan_eq_tokensFrom (s : String) : scan s = tokensFrom 0 .blank s.toList := by
  unfold scan tokensFrom
  cases read 0 .blank s.toList with
  | error e => rfl
  | ok now =>
      have hposition : byteLength s.toList = 0 + byteLength s.toList := (Nat.zero_add _).symm
      exact congrArg (fun position => (finish position now.2).map (now.1 ++ ·)) hposition

theorem tokensFrom_nil (position : Nat) (phase : Phase) :
    tokensFrom position phase [] = finish position phase := by
  rw [tokensFrom, read]
  cases h : finish position phase <;> simp [byteLength, h, Except.map]

theorem tokensFrom_cons (position : Nat) (phase : Phase) (c : Char) (text : List Char) :
    tokensFrom position phase (c :: text) =
      match step position c phase with
      | .error e => .error e
      | .ok (tokens, next) =>
          (tokensFrom (position + c.utf8Size) next text).map (tokens ++ ·) := by
  rw [tokensFrom, read]
  cases step position c phase with
  | error e => rfl
  | ok now =>
      simp only [tokensFrom, byteLength, ← Nat.add_assoc]
      cases read (position + c.utf8Size) now.2 text with
      | error e => rfl
      | ok later =>
          simp only [Except.map]
          cases finish (position + c.utf8Size + byteLength text) later.2 with
          | error e => rfl
          | ok last => simp

/-- From a phase, a text is read to its end and has the given tokens. -/
inductive Run : Phase → List Char → List Token → Prop where
  | finish {phase : Phase} {tokens : List Token} :
      (∀ position, Scan.finish position phase = .ok tokens) → Run phase [] tokens
  | step {phase next : Phase} {c : Char} {given tokens : List Token} {text : List Char} :
      Transition phase c given next → Run next text tokens →
      Run phase (c :: text) (given ++ tokens)

/-- Whether the end of the input completes something does not depend on where it is. -/
theorem finish_eq_ok {position : Nat} {phase : Phase} {tokens : List Token}
    (h : finish position phase = .ok tokens) (position' : Nat) :
    finish position' phase = .ok tokens := by
  cases phase with
  | blank => exact h
  | number text separated =>
      cases separated with
      | true => cases h
      | false => exact h
  | minutes text => exact h
  | halfUnit text unit => cases h

/-- A text has tokens exactly when it is read to its end. -/
theorem tokensFrom_eq_ok_iff {position : Nat} {phase : Phase} {text : List Char}
    {tokens : List Token} :
    tokensFrom position phase text = .ok tokens ↔ Run phase text tokens := by
  constructor
  · intro h
    induction text generalizing position phase tokens with
    | nil =>
        rw [tokensFrom_nil] at h
        exact .finish (finish_eq_ok h)
    | cons c text ih =>
        rw [tokensFrom_cons] at h
        cases hstep : step position c phase with
        | error e =>
            rw [hstep] at h
            cases h
        | ok now =>
            rw [hstep] at h
            cases hrest : tokensFrom (position + c.utf8Size) now.2 text with
            | error e =>
                simp only [hrest] at h
                cases h
            | ok later =>
                simp only [hrest] at h
                cases h
                exact .step (step_eq_ok_iff.1 hstep) (ih hrest)
  · intro h
    induction h generalizing position with
    | finish hfinish =>
        rw [tokensFrom_nil]
        exact hfinish position
    | step htransition _ ih =>
        rw [tokensFrom_cons, step_eq_ok_iff.2 htransition]
        simp only [ih]
        rfl

end DurationCalculator.Scan
