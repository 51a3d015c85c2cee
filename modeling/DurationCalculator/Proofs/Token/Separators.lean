import Mathlib.Data.List.Forall2
import DurationCalculator.Proofs.Token.Transition

/-!
# The scanner treats both separators alike

A text is pointed when a point stands for each of its commas. The scanner reads a pointed text as it
reads the text itself: each step completes the same tokens and reaches the same phase, but for their
texts, which are pointed (`step_pointed`), and so it goes for the whole text (`scan_pointed`). Two
texts are told apart by nothing but the choice of their separators exactly when they are the same
text once pointed (`map_withPoint_eq_map_iff`).
-/

set_option autoImplicit false

namespace DurationCalculator

/-- The character, or a point for a comma. -/
def withPoint (c : Char) : Char := if c = ',' then '.' else c

/-- The text with a point for each comma. -/
def withPoints (text : String) : String := String.ofList (text.toList.map withPoint)

/-- The literal with a pointed text. -/
def Literal.pointed : Literal → Literal
  | duration text => duration (withPoints text)
  | integer text => integer (withPoints text)

/-- The token with a pointed text. -/
def Token.pointed : Token → Token
  | literal l => literal l.pointed
  | token => token

/-- The error with a pointed character. -/
def ScanError.pointed : ScanError → ScanError
  | unexpectedCharacter c position => unexpectedCharacter (withPoint c) position
  | expectedDigit c position => expectedDigit (withPoint c) position
  | invalidUnitCharacter unit c position => invalidUnitCharacter unit (withPoint c) position
  | unexpectedEndOfInput position => unexpectedEndOfInput position

/-- Maps both sides of a result. -/
def recast {ε α : Type} (onError : ε → ε) (onValue : α → α) : Except ε α → Except ε α
  | .error e => .error (onError e)
  | .ok a => .ok (onValue a)

/-! ## Characters -/

/-- What does not tell the separators apart does not see the change. -/
theorem apply_withPoint {α : Type} {f : Char → α} (h : f '.' = f ',') (c : Char) :
    f (withPoint c) = f c := by
  rw [withPoint]
  split
  next hc => rw [hc, h]
  next => rfl

theorem isDigit_withPoint (c : Char) : (withPoint c).isDigit = c.isDigit := apply_withPoint rfl c

theorem isSeparator_withPoint (c : Char) :
    DurationLiteral.isSeparator (withPoint c) = DurationLiteral.isSeparator c :=
  apply_withPoint rfl c

theorem utf8Size_withPoint (c : Char) : (withPoint c).utf8Size = c.utf8Size := apply_withPoint rfl c

theorem symbol?_withPoint (c : Char) : Scan.symbol? (withPoint c) = Scan.symbol? c :=
  apply_withPoint rfl c

/-- Only separators change. -/
theorem withPoint_eq_iff {c d : Char} (hd : DurationLiteral.isSeparator d = false) :
    withPoint c = d ↔ c = d := by
  have hpoint : '.' ≠ d := by
    rintro rfl
    cases hd
  have hcomma : ',' ≠ d := by
    rintro rfl
    cases hd
  have hsame : ('.' = d) = (',' = d) := by simp [hpoint, hcomma]
  exact iff_of_eq (@apply_withPoint Prop (· = d) hsame c)

theorem withPoint_of_not_isSeparator {c : Char} (h : DurationLiteral.isSeparator c = false) :
    withPoint c = c := (withPoint_eq_iff h).2 rfl

/-- A text without separators is its own pointed text. -/
theorem map_withPoint_of_not_isSeparator {text : List Char}
    (h : ∀ c ∈ text, DurationLiteral.isSeparator c = false) : text.map withPoint = text := by
  have hsame : text.map withPoint = text.map id := by
    apply List.map_congr_left
    intro c hc
    exact withPoint_of_not_isSeparator (h c hc)
  rw [hsame, List.map_id]

/-- Two characters are the same, or both are separators. -/
def Interchangeable (c d : Char) : Prop :=
  c = d ∨ DurationLiteral.isSeparator c ∧ DurationLiteral.isSeparator d

theorem withPoint_eq_point {c : Char} (h : DurationLiteral.isSeparator c) : withPoint c = '.' := by
  have hc : c = '.' ∨ c = ',' := by simpa [DurationLiteral.isSeparator] using h
  rcases hc with rfl | rfl <;> rfl

theorem withPoint_eq_withPoint_iff {c d : Char} : withPoint c = withPoint d ↔ Interchangeable c d := by
  constructor
  · intro h
    by_cases hc : DurationLiteral.isSeparator c
    · right
      have hd : DurationLiteral.isSeparator d := by
        rw [← isSeparator_withPoint, ← h, isSeparator_withPoint]
        exact hc
      exact ⟨hc, hd⟩
    · left
      rw [withPoint_of_not_isSeparator (Bool.eq_false_iff.2 hc)] at h
      exact ((withPoint_eq_iff (Bool.eq_false_iff.2 hc)).1 h.symm).symm
  · rintro (rfl | ⟨hc, hd⟩)
    · rfl
    · rw [withPoint_eq_point hc, withPoint_eq_point hd]

/-- Two texts are the same once pointed when they differ in the choice of separators alone. -/
theorem map_withPoint_eq_map_iff {text text' : List Char} :
    text.map withPoint = text'.map withPoint ↔ List.Forall₂ Interchangeable text text' := by
  rw [← List.forall₂_eq_eq_eq, List.forall₂_map_left_iff, List.forall₂_map_right_iff]
  simp only [withPoint_eq_withPoint_iff]

end DurationCalculator

namespace DurationCalculator.Scan

/-! ## Texts of phases and tokens -/

/-- The phase with a pointed text. -/
def Phase.pointed : Phase → Phase
  | blank => blank
  | number text separated => number (withPoints text) separated
  | minutes text => minutes (withPoints text)
  | halfUnit text unit => halfUnit (withPoints text) unit

/-- The step with pointed texts. -/
def Step.pointed (now : Step) : Step := (now.1.map Token.pointed, now.2.pointed)

theorem withPoints_push (text : String) (c : Char) :
    withPoints (text.push c) = (withPoints text).push (withPoint c) := by
  apply String.toList_inj.1
  simp only [withPoints, String.toList_ofList, String.toList_push, List.map_append, List.map_cons,
    List.map_nil]

theorem withPoints_singleton (c : Char) :
    withPoints (String.singleton c) = String.singleton (withPoint c) := by
  apply String.toList_inj.1
  simp only [withPoints, String.toList_ofList, String.toList_singleton, List.map_cons, List.map_nil]

/-- A symbol has no text. -/
theorem pointed_of_symbol? {c : Char} {token : Token} (h : symbol? c = some token) :
    token.pointed = token := by
  unfold symbol? at h
  split at h <;> cases h <;> rfl

/-! ## Steps -/

section Steps

variable (position : Nat) (c : Char)

theorem begin_pointed :
    begin position (withPoint c) = recast ScanError.pointed Step.pointed (begin position c) := by
  have hspace : withPoint c = ' ' ↔ c = ' ' := withPoint_eq_iff rfl
  rw [begin, begin, isDigit_withPoint, symbol?_withPoint]
  simp only [hspace]
  split
  next => rfl
  next =>
  split
  next =>
    simp only [recast, Step.pointed, Phase.pointed, withPoints_singleton]
    rfl
  next =>
    cases hsymbol : symbol? c with
    | none => rfl
    | some token =>
        simp only [recast, Step.pointed, List.map_cons, pointed_of_symbol? hsymbol]
        rfl

theorem continueNumber_pointed (text : String) (separated : Bool) :
    continueNumber (withPoints text) separated position (withPoint c) =
      recast ScanError.pointed Step.pointed (continueNumber text separated position c) := by
  have hletter (d : Char) (hd : DurationLiteral.isSeparator d = false) :
      withPoint c = d ↔ c = d := withPoint_eq_iff hd
  simp only [continueNumber, isDigit_withPoint, isSeparator_withPoint, symbol?_withPoint,
    ← withPoints_push, hletter 'h' rfl, hletter 's' rfl, hletter 'm' rfl, hletter 'u' rfl,
    hletter 'n' rfl, hletter ' ' rfl]
  split
  next => rfl
  next =>
  split
  next => rfl
  next =>
  split
  next => rfl
  next =>
  split
  next hunit =>
    -- the first letter of a unit is no separator
    rcases hunit with rfl | rfl <;> rfl
  next =>
  split
  next => rfl
  next =>
  split
  next => rfl
  next =>
  split
  next => rfl
  next =>
    cases hsymbol : symbol? c with
    | none => rfl
    | some token =>
        simp only [recast, Step.pointed, List.map_cons, pointed_of_symbol? hsymbol]
        rfl

/-- The scanner takes the same step on a pointed character in a pointed phase. -/
theorem step_pointed (phase : Phase) :
    step position (withPoint c) phase.pointed =
      recast ScanError.pointed Step.pointed (step position c phase) := by
  have hs : withPoint c = 's' ↔ c = 's' := withPoint_eq_iff rfl
  cases phase with
  | blank => exact begin_pointed position c
  | number text separated => exact continueNumber_pointed position c text separated
  | minutes text =>
      simp only [Phase.pointed, step, hs, begin_pointed, ← withPoints_push]
      split
      next => rfl
      next =>
        -- the minutes end in front of `c`
        cases begin position c with
        | error e => rfl
        | ok now => rfl
  | halfUnit text unit =>
      simp only [Phase.pointed, step, hs, ← withPoints_push]
      split
      next => rfl
      next => rfl

end Steps

/-! ## Texts -/

theorem finish_pointed (position : Nat) (phase : Phase) :
    finish position phase.pointed =
      recast ScanError.pointed (List.map Token.pointed) (finish position phase) := by
  cases phase with
  | number text separated => cases separated <;> rfl
  | _ => rfl

/-- The scanner reads a pointed text as it reads the text. Both characters have the same size, so
that the positions are the same. -/
theorem tokensFrom_pointed (text : List Char) (position : Nat) (phase : Phase) :
    tokensFrom position phase.pointed (text.map withPoint) =
      recast ScanError.pointed (List.map Token.pointed) (tokensFrom position phase text) := by
  induction text generalizing position phase with
  | nil =>
      rw [List.map_nil, tokensFrom_nil, tokensFrom_nil]
      exact finish_pointed position phase
  | cons c text ih =>
      rw [List.map_cons, tokensFrom_cons, tokensFrom_cons, step_pointed, utf8Size_withPoint]
      cases step position c phase with
      | error e => rfl
      | ok now =>
          simp only [recast, Step.pointed, ih]
          cases tokensFrom (position + c.utf8Size) now.2 text with
          | error e => rfl
          | ok later => simp [Except.map]

end DurationCalculator.Scan

namespace DurationCalculator

/-- The tokens of a pointed text are those of the text, pointed. -/
theorem scan_pointed (source : String) :
    scan (withPoints source) =
      recast ScanError.pointed (List.map Token.pointed) (scan source) := by
  rw [Scan.scan_eq_tokensFrom, Scan.scan_eq_tokensFrom, withPoints, String.toList_ofList]
  exact Scan.tokensFrom_pointed source.toList 0 .blank

end DurationCalculator
