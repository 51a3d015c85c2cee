import DurationCalculator.Proofs.Token.Acceptance

/-!
# Where the scanner fails

A scan error stands at the earliest place that it can: what has been read in front of it can still
be completed to an accepted text, and with the reported character it cannot
(`scan_error_at_dead_end`). The last character that has been read decides which error it is.

A phase can always be completed (`exists_completion`) and knows the last character that has been
read (`Transition.endsIn`); a run that fails does so in one step, on the reported character
(`exists_failing_step`).
-/

set_option autoImplicit false

namespace DurationCalculator

/-- The text can be completed to one that the scanner accepts. -/
def AcceptedPrefix (text : String) : Prop :=
  ∃ (more : String) (tokens : List Token), scan (text ++ more) = .ok tokens

/-- The error for the character `c` at byte `position` that follows `last`, or that stands at the
start of the text. -/
def ScanError.rejecting (last : Option Char) (c : Char) (position : Nat) : ScanError :=
  match last with
  | none => .unexpectedCharacter c position
  | some last =>
      if last.isDigit ∨ DurationLiteral.isSeparator last then .expectedDigit c position
      else if last = 'u' ∨ last = 'n' then .invalidUnitCharacter last c position
      else .unexpectedCharacter c position

namespace Scan

/-! ## Phases -/

/-- The character can be the last one that has been read in the phase. -/
def Phase.EndsIn (c : Char) : Phase → Prop
  | blank => ¬(c.isDigit ∨ DurationLiteral.isSeparator c) ∧ ¬(c = 'u' ∨ c = 'n')
  | number _ _ => c.isDigit ∨ DurationLiteral.isSeparator c
  | minutes _ => c = 'm'
  | halfUnit _ unit => c = unit ∧ (c = 'u' ∨ c = 'n')

/-- The error in a phase. -/
def Phase.rejection (c : Char) (position : Nat) : Phase → ScanError
  | blank => .unexpectedCharacter c position
  | number _ _ => .expectedDigit c position
  | minutes _ => .unexpectedCharacter c position
  | halfUnit _ unit => .invalidUnitCharacter unit c position

/-- The last character that has been read decides the error. -/
theorem rejection_eq_rejecting {phase : Phase} {last : Char} (h : phase.EndsIn last) (c : Char)
    (position : Nat) :
    phase.rejection c position = ScanError.rejecting (some last) c position := by
  cases phase with
  | blank =>
      obtain ⟨hamount, hunit⟩ := h
      rw [Phase.rejection, ScanError.rejecting, if_neg hamount, if_neg hunit]
  | number text separated =>
      have hamount : last.isDigit ∨ DurationLiteral.isSeparator last := h
      rw [Phase.rejection, ScanError.rejecting, if_pos hamount]
  | minutes text =>
      obtain rfl : last = 'm' := h
      rfl
  | halfUnit text unit =>
      obtain ⟨rfl, hunit⟩ := h
      rcases hunit with rfl | rfl <;> rfl

/-- The literal under way can be completed. -/
theorem exists_completion (phase : Phase) : ∃ more tokens, Run phase more tokens := by
  have hend : Run .blank [] [.endOfInput] := .finish fun _ => rfl
  cases phase with
  | blank => exact ⟨[], _, hend⟩
  | number text separated => exact ⟨['h'], _, .step (.unit (.inl rfl)) hend⟩
  | minutes text => exact ⟨[], _, hend.minutes text⟩
  | halfUnit text unit => exact ⟨['s'], _, .step .endUnit hend⟩

/-- Behind a transition, the phase fits the character that has been read. -/
theorem Transition.endsIn {phase next : Phase} {c : Char} {tokens : List Token}
    (h : Transition phase c tokens next) : next.EndsIn c := by
  induction h with
  | space => exact ⟨by decide, by decide⟩
  | symbol hsymbol =>
      unfold symbol? at hsymbol
      split at hsymbol <;> cases hsymbol <;> exact ⟨by decide, by decide⟩
  | number hdigit => exact .inl hdigit
  | digit hdigit => exact .inl hdigit
  | separator hseparator => exact .inr hseparator
  | unit hunit => rcases hunit with rfl | rfl <;> exact ⟨by decide, by decide⟩
  | minutes => rfl
  | halfUnit hunit => exact ⟨rfl, hunit⟩
  | endInteger _ _ ih => exact ih
  | endMinutes _ ih => exact ih
  | milliseconds => exact ⟨by decide, by decide⟩
  | endUnit => exact ⟨by decide, by decide⟩

/-! ## Errors of steps -/

theorem eq_of_begin_eq_error {position : Nat} {c : Char} {e : ScanError}
    (h : begin position c = .error e) : e = .unexpectedCharacter c position := by
  unfold begin at h
  split at h
  next => cases h
  next =>
    split at h
    next => cases h
    next =>
      split at h
      next => cases h
      next =>
        cases h
        rfl

theorem eq_of_continueNumber_eq_error {text : String} {separated : Bool} {position : Nat}
    {c : Char} {e : ScanError} (h : continueNumber text separated position c = .error e) :
    e = .expectedDigit c position := by
  simp only [continueNumber] at h
  repeat'
    split at h
  all_goals
    cases h
  all_goals rfl

/-- The phase decides the error of a step. -/
theorem eq_rejection_of_step {position : Nat} {phase : Phase} {c : Char} {e : ScanError}
    (h : step position c phase = .error e) : e = phase.rejection c position := by
  cases phase with
  | blank => exact eq_of_begin_eq_error h
  | number text separated => exact eq_of_continueNumber_eq_error h
  | minutes text =>
      rw [step] at h
      split at h
      next => cases h
      next =>
        cases hbegin : begin position c with
        | error e' =>
            rw [hbegin] at h
            cases h
            exact eq_of_begin_eq_error hbegin
        | ok started =>
            rw [hbegin] at h
            cases h
  | halfUnit text unit =>
      rw [step] at h
      split at h
      next => cases h
      next =>
        cases h
        rfl

/-! ## Runs -/

theorem byteLength_append (xs ys : List Char) :
    byteLength (xs ++ ys) = byteLength xs + byteLength ys := by
  induction xs with
  | nil => simp [byteLength]
  | cons x xs ih => simp only [List.cons_append, byteLength, ih, Nat.add_assoc]

theorem byteLength_toList (s : String) : byteLength s.toList = s.utf8ByteSize := by
  have hofList (text : List Char) :
      byteLength text = (String.ofList text).utf8ByteSize := by
    induction text with
    | nil => rfl
    | cons c text ih =>
        have hcons : String.ofList (c :: text) = String.singleton c ++ String.ofList text :=
          String.toList_inj.1 (by simp)
        rw [byteLength, ih, hcons, String.utf8ByteSize_append, String.utf8ByteSize_singleton]
  rw [hofList, String.ofList_toList]

/-- Behind what has been read, the run goes on in the phase reached. -/
theorem tokensFrom_append {before : List Char} {position : Nat} {phase : Phase} {now : Step}
    (h : read position phase before = .ok now) (text : List Char) :
    tokensFrom position phase (before ++ text) =
      (tokensFrom (position + byteLength before) now.2 text).map (now.1 ++ ·) := by
  rw [tokensFrom, tokensFrom, read_append, h]
  simp only [byteLength_append, ← Nat.add_assoc]
  cases read (position + byteLength before) now.2 text with
  | error e => rfl
  | ok later =>
      simp only [Except.map]
      cases finish (position + byteLength before + byteLength text) later.2 with
      | error e => rfl
      | ok last => simp

/-- The phase behind a text fits its last character. -/
theorem endsIn_of_read {before : List Char} {last : Char} {position : Nat} {phase : Phase}
    {now : Step} (h : read position phase (before ++ [last]) = .ok now) :
    now.2.EndsIn last := by
  rw [read_append] at h
  cases hbefore : read position phase before with
  | error e =>
      rw [hbefore] at h
      cases h
  | ok earlier =>
      simp only [hbefore, read] at h
      cases hstep : step (position + byteLength before) last earlier.2 with
      | error e =>
          rw [hstep] at h
          cases h
      | ok latest =>
          rw [hstep] at h
          cases h
          exact (step_eq_ok_iff.1 hstep).endsIn

/-- A run that fails does so in one step, behind a text that has been read. -/
theorem exists_failing_step {text : List Char} {position : Nat} {phase : Phase} {e : ScanError}
    (h : read position phase text = .error e) :
    ∃ before c rest now, text = before ++ c :: rest ∧ read position phase before = .ok now ∧
      step (position + byteLength before) c now.2 = .error e := by
  induction text generalizing position phase with
  | nil => cases h
  | cons c text ih =>
      rw [read] at h
      cases hstep : step position c phase with
      | error e' =>
          rw [hstep] at h
          cases h
          -- the first step fails
          exact ⟨[], c, text, ([], phase), rfl, rfl, hstep⟩
      | ok first =>
          simp only [hstep] at h
          cases hrest : read (position + c.utf8Size) first.2 text with
          | ok later =>
              rw [hrest] at h
              cases h
          | error e' =>
              rw [hrest] at h
              cases h
              obtain ⟨before, d, rest, now, rfl, hread, hfails⟩ := ih hrest
              refine ⟨c :: before, d, rest, (first.1 ++ now.1, now.2), rfl, ?_, ?_⟩
              · rw [read, hstep]
                simp only [hread]
                rfl
              · rwa [byteLength, ← Nat.add_assoc]

/-- Where a run gets to can be completed. -/
theorem acceptedPrefix_of_read {text : String} {now : Step}
    (h : read 0 .blank text.toList = .ok now) : AcceptedPrefix text := by
  obtain ⟨more, tokens, hmore⟩ := exists_completion now.2
  refine ⟨String.ofList more, now.1 ++ tokens, ?_⟩
  rw [scan_eq_tokensFrom, String.toList_append, String.toList_ofList, tokensFrom_append h,
    tokensFrom_eq_ok_iff.2 hmore]
  rfl

/-- What fails on a character fails with everything behind it. -/
theorem not_acceptedPrefix_of_step {text : String} {c : Char} {now : Step} {e : ScanError}
    (h : read 0 .blank text.toList = .ok now)
    (hstep : step (0 + byteLength text.toList) c now.2 = .error e) :
    ¬AcceptedPrefix (text.push c) := by
  rintro ⟨more, tokens, hmore⟩
  rw [scan_eq_tokensFrom, String.toList_append, String.toList_push, List.append_assoc,
    tokensFrom_append h, List.singleton_append, tokensFrom_cons, hstep] at hmore
  cases hmore

/-- The error of a step is decided by the last character in front of it. -/
theorem eq_rejecting_of_step {before : List Char} {position : Nat} {c : Char} {now : Step}
    {e : ScanError} (h : read 0 .blank before = .ok now)
    (hstep : step position c now.2 = .error e) :
    e = ScanError.rejecting before.getLast? c position := by
  rw [eq_rejection_of_step hstep]
  -- at the start of the text there is no last character, and the phase is blank
  rcases List.eq_nil_or_concat before with rfl | ⟨front, last, rfl⟩
  · cases h
    rfl
  · rw [List.concat_eq_append] at h ⊢
    rw [List.getLast?_concat]
    exact rejection_eq_rejecting (endsIn_of_read h) c position

/-- The end of the input fails with the position of the end. -/
theorem eq_of_finish_eq_error {position : Nat} {phase : Phase} {e : ScanError}
    (h : finish position phase = .error e) : e = .unexpectedEndOfInput position := by
  cases phase with
  | blank => cases h
  | number text separated =>
      cases separated with
      | true =>
          cases h
          rfl
      | false => cases h
  | minutes text => cases h
  | halfUnit text unit =>
      cases h
      rfl

end Scan

/-- A scan error stands at the earliest place: the text in front of it can be completed. At the end
of the input that is the whole text. Elsewhere the text cannot be completed with the reported
character, and the character in front of it decides the error. -/
theorem scan_error_at_dead_end (s : String) (e : ScanError) (h : scan s = .error e) :
    ∃ before rest, s = before ++ rest ∧ AcceptedPrefix before ∧
      ((rest = "" ∧ e = .unexpectedEndOfInput before.utf8ByteSize) ∨
        ∃ c tail, rest = String.singleton c ++ tail ∧ ¬AcceptedPrefix (before.push c) ∧
          e = .rejecting before.toList.getLast? c before.utf8ByteSize) := by
  rw [scan] at h
  cases hread : Scan.read 0 .blank s.toList with
  | ok now =>
      rw [hread] at h
      cases hfinish : Scan.finish (Scan.byteLength s.toList) now.2 with
      | ok tokens =>
          simp only [hfinish] at h
          cases h
      | error e' =>
          simp only [hfinish] at h
          cases h
          have he := Scan.eq_of_finish_eq_error hfinish
          rw [Scan.byteLength_toList] at he
          exact ⟨s, "", String.append_empty.symm, Scan.acceptedPrefix_of_read hread,
            .inl ⟨rfl, he⟩⟩
  | error e' =>
      rw [hread] at h
      cases h
      obtain ⟨before, c, rest, now, hsplit, hbefore, hstep⟩ := Scan.exists_failing_step hread
      -- what has been read is a string as well
      obtain ⟨text, rfl⟩ : ∃ text : String, text.toList = before :=
        ⟨String.ofList before, String.toList_ofList⟩
      have htext : s = text ++ (String.singleton c ++ String.ofList rest) :=
        String.toList_inj.1 (by simp [hsplit])
      refine ⟨text, _, htext, Scan.acceptedPrefix_of_read hbefore,
        .inr ⟨c, String.ofList rest, rfl, ?_, ?_⟩⟩
      · exact Scan.not_acceptedPrefix_of_step hbefore hstep
      · have he := Scan.eq_rejecting_of_step hbefore hstep
        rwa [Nat.zero_add, Scan.byteLength_toList] at he

/-- A unit that breaks off in front of a character of two bytes. -/
theorem scan_error_in_unit :
    scan "2us 1,5né" = .error (.invalidUnitCharacter 'n' 'é' 8) ∧
      ∃ before rest, "2us 1,5né" = before ++ rest ∧ AcceptedPrefix before ∧
        ((rest = "" ∧ ScanError.invalidUnitCharacter 'n' 'é' 8 =
            .unexpectedEndOfInput before.utf8ByteSize) ∨
          ∃ c tail, rest = String.singleton c ++ tail ∧ ¬AcceptedPrefix (before.push c) ∧
            ScanError.invalidUnitCharacter 'n' 'é' 8 =
              .rejecting before.toList.getLast? c before.utf8ByteSize) := by
  have hscan : scan "2us 1,5né" = .error (.invalidUnitCharacter 'n' 'é' 8) := rfl
  exact ⟨hscan, scan_error_at_dead_end _ _ hscan⟩

end DurationCalculator
