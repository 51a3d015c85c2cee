import DurationCalculator.Proofs.Token.Lexeme
import DurationCalculator.Proofs.Token.Transition

/-!
# What the scanner accepts

The scanner accepts exactly the texts that are spelled and gives back their tokens, with the token
for the end behind them (`scan_accepts_spelled`).

In one direction the invariant is that the literal under way can be completed. A transition keeps
it and gives tokens that spell the characters used up (`spelled_of_transition`); over a run this
adds up to a spelling of the whole text (`Run.spells`). In the other direction a run is put
together from the end of the text, token by token (`run_of_spells`).
-/

set_option autoImplicit false

namespace DurationCalculator.Scan

/-! ## Accepted texts are spelled -/

/-- The characters of the literal under way. -/
def Phase.chars : Phase → List Char
  | blank => []
  | number text _ => text.toList
  | minutes text => text.toList
  | halfUnit text _ => text.toList

/-- The literal under way is an amount, with the first letter of a unit behind it or not. -/
def Phase.WellFormed : Phase → Prop
  | blank => True
  | number text separated => IsAmount separated text.toList
  | minutes text => ∃ separated amount, IsAmount separated amount ∧ text.toList = amount ++ ['m']
  | halfUnit text unit => (unit = 'u' ∨ unit = 'n') ∧
      ∃ separated amount, IsAmount separated amount ∧ text.toList = amount ++ [unit]

/-- The character is used up: the tokens `given` and what is under way in the phase `next` spell
what has been under way in `phase` and the character. -/
def Spelled (phase : Phase) (c : Char) (given : List Token) (next : Phase) : Prop :=
  next.WellFormed ∧ ∀ tokens text, Spells tokens (next.chars ++ text) →
    Spells (given ++ tokens) (phase.chars ++ c :: text)

/-- An amount with a unit behind it is a duration. -/
theorem wellFormed_duration {text : String} {separated : Bool} {amount : List Char}
    (unit : TimeUnit) (h : IsAmount separated amount)
    (htext : text.toList = amount ++ unit.suffix) : (Literal.duration text).WellFormed :=
  ⟨separated, amount, unit, h, htext⟩

section Spelled

variable {phase next : Phase} {c : Char} {given : List Token} {text : String}

/-- The character goes on with the literal under way. -/
theorem spelled_longer (hnext : next.WellFormed) (hchars : next.chars = phase.chars ++ [c]) :
    Spelled phase c [] next := by
  refine ⟨hnext, ?_⟩
  intro tokens text hspells
  rwa [hchars, List.append_assoc] at hspells

/-- The character completes a duration. -/
theorem spelled_duration (h : (Literal.duration text).WellFormed)
    (htext : text.toList = phase.chars ++ [c]) :
    Spelled phase c [.literal (.duration text)] .blank := by
  refine ⟨trivial, ?_⟩
  intro tokens rest hspells
  have hwhole := spells_duration h hspells
  rwa [htext, List.append_assoc] at hwhole

/-- The character ends an integer: it is a space or a symbol. -/
theorem spelled_endInteger (hdigit : ¬c.isDigit) (h : Transition .blank c given next)
    (hinteger : IsAmount false text.toList) (hspelled : Spelled .blank c given next) :
    Spelled (.number text false) c (.literal (.integer text) :: given) next := by
  obtain ⟨hnext, hspells⟩ := hspelled
  have hlexeme : (Token.literal (.integer text)).IsLexeme := hinteger
  refine ⟨hnext, ?_⟩
  intro tokens rest hrest
  refine .token hlexeme ?_ (hspells tokens rest hrest)
  -- a literal follows only behind a space, since a digit goes on with the integer
  cases h with
  | space =>
      intro n l others _ _
      exact ⟨rest, rfl⟩
  | number hnumber => exact absurd hnumber hdigit
  | symbol hsymbol => exact separated_symbol hsymbol _ tokens (c :: rest)

/-- A transition keeps the literal under way well-formed and spells the tokens that it gives. -/
theorem spelled_of_transition (h : Transition phase c given next) (hphase : phase.WellFormed) :
    Spelled phase c given next := by
  induction h with
  | space =>
      refine ⟨trivial, ?_⟩
      intro tokens text hspells
      exact .space hspells
  | symbol hsymbol =>
      refine ⟨trivial, ?_⟩
      intro tokens text hspells
      exact spells_symbol hsymbol hspells
  | @number c hdigit =>
      refine spelled_longer ?_ (String.toList_singleton c)
      rw [Phase.WellFormed, String.toList_singleton]
      exact isAmount_singleton hdigit
  | @digit text separated c hdigit =>
      refine spelled_longer ?_ (String.toList_push c)
      rw [Phase.WellFormed, String.toList_push]
      exact IsAmount.append_digit hphase hdigit
  | @separator text c hseparator =>
      refine spelled_longer ?_ (String.toList_push c)
      rw [Phase.WellFormed, String.toList_push]
      exact IsAmount.append_separator hphase hseparator
  | @unit text separated c hunit =>
      refine spelled_duration ?_ (String.toList_push c)
      rcases hunit with rfl | rfl
      · exact wellFormed_duration .hour hphase (String.toList_push 'h')
      · exact wellFormed_duration .second hphase (String.toList_push 's')
  | @minutes text separated =>
      have hlonger : (text.push 'm').toList = text.toList ++ ['m'] := String.toList_push 'm'
      exact spelled_longer ⟨separated, text.toList, hphase, hlonger⟩ hlonger
  | @halfUnit text separated c hunit =>
      have hlonger : (text.push c).toList = text.toList ++ [c] := String.toList_push c
      exact spelled_longer ⟨hunit, separated, text.toList, hphase, hlonger⟩ hlonger
  | endInteger hdigit hblank ih => exact spelled_endInteger hdigit hblank hphase (ih trivial)
  | endMinutes _ ih =>
      -- the minutes are complete, so what is under way has started with `c`
      obtain ⟨separated, amount, hamount, htext⟩ := hphase
      obtain ⟨hnext, hspells⟩ := ih trivial
      refine ⟨hnext, ?_⟩
      intro tokens rest hrest
      have hduration := wellFormed_duration .minute hamount htext
      exact spells_duration hduration (hspells tokens rest hrest)
  | milliseconds =>
      obtain ⟨separated, amount, hamount, htext⟩ := hphase
      refine spelled_duration ?_ (String.toList_push 's')
      exact wellFormed_duration .millisecond hamount (by simp [htext, TimeUnit.suffix])
  | endUnit =>
      obtain ⟨hunit, separated, amount, hamount, htext⟩ := hphase
      refine spelled_duration ?_ (String.toList_push 's')
      rcases hunit with rfl | rfl
      · exact wellFormed_duration .microsecond hamount (by simp [htext, TimeUnit.suffix])
      · exact wellFormed_duration .nanosecond hamount (by simp [htext, TimeUnit.suffix])

end Spelled

/-- What the end of the input completes spells the literal under way. -/
theorem spells_of_finish {position : Nat} {phase : Phase} {tokens : List Token}
    (hphase : phase.WellFormed) (h : finish position phase = .ok tokens) :
    ∃ words, tokens = words ++ [.endOfInput] ∧ Spells words phase.chars := by
  cases phase with
  | blank =>
      cases h
      exact ⟨[], rfl, .done⟩
  | number text separated =>
      cases separated with
      | true => cases h
      | false =>
          cases h
          have hinteger : (Token.literal (.integer text)).IsLexeme := hphase
          have hlast : Separated (.literal (.integer text)) [] [] := by
            intro n l rest _ hnil
            cases hnil
          have hspells := Spells.token hinteger hlast .done
          rw [List.append_nil] at hspells
          exact ⟨[.literal (.integer text)], rfl, hspells⟩
  | minutes text =>
      cases h
      obtain ⟨separated, amount, hamount, htext⟩ := hphase
      have hspells := spells_duration (wellFormed_duration .minute hamount htext) .done
      rw [List.append_nil] at hspells
      exact ⟨[.literal (.duration text)], rfl, hspells⟩
  | halfUnit text unit => cases h

/-- The tokens of a text that is read to its end spell it. -/
theorem Run.spells {phase : Phase} {text : List Char} {tokens : List Token}
    (h : Run phase text tokens) (hphase : phase.WellFormed) :
    ∃ words, tokens = words ++ [.endOfInput] ∧ Spells words (phase.chars ++ text) := by
  -- on the run; the well-formed literal under way carries the induction
  induction h with
  | finish hfinish =>
      rw [List.append_nil]
      exact spells_of_finish hphase (hfinish 0)
  | @step phase next c given tokens text htransition _ ih =>
      obtain ⟨hnext, hspelled⟩ := spelled_of_transition htransition hphase
      obtain ⟨words, rfl, hspells⟩ := ih hnext
      exact ⟨given ++ words, (List.append_assoc _ _ _).symm, hspelled words text hspells⟩

/-! ## Spelled texts are accepted -/

section Spelling

variable {tokens : List Token} {rest : List Char}

/-- A literal that is complete in front of every character that starts something new is complete
in front of a text that is read to its end. -/
theorem Run.ended {phase : Phase} {token : Token} (h : Run .blank rest tokens)
    (hfinish : ∀ position, Scan.finish position phase = .ok [token, .endOfInput])
    (hstep : ∀ c text given next, rest = c :: text → Transition .blank c given next →
      Transition phase c (token :: given) next) :
    Run phase rest (token :: tokens) := by
  cases h with
  | finish hblank =>
      obtain rfl : [Token.endOfInput] = tokens := Except.ok.inj (hblank 0)
      exact .finish hfinish
  | @step _ next c given tokens text htransition hrest =>
      exact .step (hstep c text given next rfl htransition) hrest

/-- Minutes are complete in front of a text that is read to its end: it does not start with the
`s` of milliseconds. -/
theorem Run.minutes (h : Run .blank rest tokens) (text : String) :
    Run (.minutes text) rest (.literal (.duration text) :: tokens) := by
  refine h.ended (fun _ => rfl) ?_
  intro c chars given next _ hblank
  exact .endMinutes hblank

/-- Digits go on with the number under way. -/
theorem Run.digits {digits : List Char} {text : String} {separated : Bool}
    (h : Run (.number (text ++ String.ofList digits) separated) rest tokens)
    (hdigits : ∀ c ∈ digits, c.isDigit) :
    Run (.number text separated) (digits ++ rest) tokens := by
  induction digits generalizing text with
  | nil =>
      have htext : text ++ String.ofList [] = text := String.toList_inj.1 (by simp)
      rwa [htext] at h
  | cons c digits ih =>
      have htext : text ++ String.ofList (c :: digits) = text.push c ++ String.ofList digits :=
        String.toList_inj.1 (by simp)
      have hmore : ∀ d ∈ digits, d.isDigit := by
        intro d hd
        exact hdigits d (List.mem_cons_of_mem c hd)
      rw [htext] at h
      exact .step (.digit (hdigits c List.mem_cons_self)) (ih h hmore)

/-- Digits at the start of a text are a number under way. -/
theorem Run.numeral {digits : List Char}
    (h : Run (.number (String.ofList digits) false) rest tokens)
    (hdigits : Decimal.isNumeral digits) : Run .blank (digits ++ rest) tokens := by
  obtain ⟨hne, hdigits⟩ := isNumeral_iff.1 hdigits
  cases digits with
  | nil => exact absurd rfl hne
  | cons c digits =>
      have htext : String.ofList (c :: digits) = String.singleton c ++ String.ofList digits :=
        String.toList_inj.1 (by simp)
      have hmore : ∀ d ∈ digits, d.isDigit := by
        intro d hd
        exact hdigits d (List.mem_cons_of_mem c hd)
      rw [htext] at h
      exact .step (.number (hdigits c List.mem_cons_self)) (h.digits hmore)

/-- An amount at the start of a text is a number under way. -/
theorem Run.amount {separated : Bool} {amount : List Char}
    (h : Run (.number (String.ofList amount) separated) rest tokens)
    (hamount : IsAmount separated amount) : Run .blank (amount ++ rest) tokens := by
  cases separated with
  | false => exact h.numeral hamount
  | true =>
      obtain ⟨whole, c, fraction, hwhole, hc, hfraction, rfl⟩ := hamount
      have htext : String.ofList (whole ++ c :: fraction) =
          (String.ofList whole).push c ++ String.ofList fraction := String.toList_inj.1 (by simp)
      rw [htext] at h
      rw [List.append_assoc]
      -- from the end: the fraction, then the separator, then the whole part
      have hrest := Run.step (.separator hc) (h.digits hfraction)
      exact hrest.numeral hwhole

/-- A number is complete with the unit behind it. -/
theorem Run.suffix (h : Run .blank rest tokens) (unit : TimeUnit) (amount : String)
    (separated : Bool) :
    Run (.number amount separated) (unit.suffix ++ rest)
      (.literal (.duration (amount ++ String.ofList unit.suffix)) :: tokens) := by
  have hone (c : Char) : amount ++ String.ofList [c] = amount.push c :=
    String.toList_inj.1 (by simp)
  have htwo (c : Char) : amount ++ String.ofList [c, 's'] = (amount.push c).push 's' :=
    String.toList_inj.1 (by simp)
  cases unit with
  | hour =>
      rw [TimeUnit.suffix, hone]
      exact .step (.unit (.inl rfl)) h
  | minute =>
      rw [TimeUnit.suffix, hone]
      exact .step .minutes (h.minutes _)
  | second =>
      rw [TimeUnit.suffix, hone]
      exact .step (.unit (.inr rfl)) h
  | millisecond =>
      rw [TimeUnit.suffix, htwo]
      exact .step .minutes (.step .milliseconds h)
  | microsecond =>
      rw [TimeUnit.suffix, htwo]
      exact .step (.halfUnit (.inl rfl)) (.step .endUnit h)
  | nanosecond =>
      rw [TimeUnit.suffix, htwo]
      exact .step (.halfUnit (.inr rfl)) (.step .endUnit h)

/-- An integer is complete in front of what may follow it. -/
theorem Run.integer {words : List Token} {text : String} (h : Run .blank rest tokens)
    (hseparated : Separated (.literal (.integer text)) words rest) (hspells : Spells words rest) :
    Run (.number text false) rest (.literal (.integer text) :: tokens) := by
  -- only a digit would go on with the integer, and no digit may follow
  refine h.ended (fun _ => rfl) ?_
  intro c chars given next hrest hblank
  subst hrest
  refine .endInteger ?_ hblank
  rcases hspells.of_cons with rfl | ⟨token, others, more, rfl, hlexeme, hchars⟩
  · decide
  · by_cases hliteral : ∃ l, token = .literal l
    · obtain ⟨l, rfl⟩ := hliteral
      obtain ⟨text', htext'⟩ := hseparated text l others rfl rfl
      obtain ⟨rfl, -⟩ := List.cons.inj htext'
      decide
    · obtain ⟨symbol, hsymbol, hone⟩ := exists_symbol? hlexeme fun l hl => hliteral ⟨l, hl⟩
      obtain ⟨rfl, -⟩ := List.cons.inj (hchars.symm.trans hone)
      exact not_isDigit_of_symbol? hsymbol

end Spelling

/-- A spelled text is read to its end, and has the tokens that spell it. -/
theorem run_of_spells {words : List Token} {text : List Char} (h : Spells words text) :
    Run .blank text (words ++ [.endOfInput]) := by
  induction h with
  | done => exact .finish fun _ => rfl
  | space _ ih =>
      have hrun := Run.step .space ih
      exact hrun
  | @token token words text hlexeme hseparated hspells ih =>
      by_cases hliteral : ∃ l, token = .literal l
      · obtain ⟨l, rfl⟩ := hliteral
        cases l with
        | integer integer =>
            have hinteger : Run (.number (String.ofList integer.toList) false) text
                (.literal (.integer integer) :: (words ++ [.endOfInput])) := by
              rw [String.ofList_toList]
              exact ih.integer hseparated hspells
            exact hinteger.numeral hlexeme
        | duration duration =>
            obtain ⟨separated, amount, unit, hamount, htext⟩ := hlexeme
            have hduration : String.ofList amount ++ String.ofList unit.suffix = duration :=
              String.toList_inj.1 (by simp [htext])
            have hsuffix := ih.suffix unit (String.ofList amount) separated
            rw [hduration] at hsuffix
            rw [Token.chars, Literal.text, htext, List.append_assoc]
            exact hsuffix.amount hamount
      · obtain ⟨symbol, hsymbol, hchars⟩ := exists_symbol? hlexeme fun l hl => hliteral ⟨l, hl⟩
        rw [hchars]
        have hrun := Run.step (.symbol hsymbol) ih
        exact hrun

end DurationCalculator.Scan

namespace DurationCalculator

theorem scan_eq_ok_iff {s : String} {tokens : List Token} :
    scan s = .ok tokens ↔ ∃ words, tokens = words ++ [.endOfInput] ∧ Spells words s.toList := by
  rw [Scan.scan_eq_tokensFrom, Scan.tokensFrom_eq_ok_iff]
  constructor
  · intro h
    have hblank : Scan.Phase.blank.WellFormed := trivial
    exact h.spells hblank
  · rintro ⟨words, rfl, hspells⟩
    exact Scan.run_of_spells hspells

/-- A text has one spelling. -/
theorem Spells.unique {words others : List Token} {text : List Char} (h : Spells words text)
    (hothers : Spells others text) : others = words := by
  have hwords : Scan.tokensFrom 0 .blank text = .ok (words ++ [.endOfInput]) :=
    Scan.tokensFrom_eq_ok_iff.2 (Scan.run_of_spells h)
  have hsame : Scan.tokensFrom 0 .blank text = .ok (others ++ [.endOfInput]) :=
    Scan.tokensFrom_eq_ok_iff.2 (Scan.run_of_spells hothers)
  rw [hwords] at hsame
  exact (List.append_cancel_right (Except.ok.inj hsame)).symm

/-- The scanner accepts exactly the texts that are spelled. It gives back the tokens that spell the
text, of which there is one list, and the token for the end, which stands nowhere else. Nothing but
spaces is lost on the way, and no token stands for them. -/
theorem scan_accepts_spelled (s : String) :
    (∀ tokens, scan s = .ok tokens ↔
      ∃ words, tokens = words ++ [.endOfInput] ∧ Spells words s.toList) ∧
    ∀ words, Spells words s.toList →
      (∀ others, Spells others s.toList → others = words) ∧
      s.toList.filter (· ≠ ' ') = words.flatMap Token.chars ∧
      (∀ token ∈ words, token.IsLexeme) ∧ .whitespace ∉ words ∧ .endOfInput ∉ words := by
  refine ⟨fun tokens => scan_eq_ok_iff, ?_⟩
  intro words hspells
  have hlexeme := hspells.isLexeme
  refine ⟨?_, hspells.filter_eq, hlexeme, ?_, ?_⟩
  · intro others hothers
    exact hspells.unique hothers
  · intro hmem
    exact hlexeme .whitespace hmem
  · intro hmem
    exact hlexeme .endOfInput hmem

/-- An integer in front of two durations that stand side by side. -/
theorem scan_accepts_side_by_side :
    let words : List Token := [.literal (.integer "4"), .literal (.duration "1,5h"),
      .literal (.duration "30ms"), .star, .literal (.duration "2m")]
    scan "4 1,5h30ms* 2m" = .ok (words ++ [.endOfInput]) ∧
      Spells words "4 1,5h30ms* 2m".toList ∧
      "4 1,5h30ms* 2m".toList.filter (· ≠ ' ') = words.flatMap Token.chars := by
  intro words
  have hscan : scan "4 1,5h30ms* 2m" = .ok (words ++ [.endOfInput]) := rfl
  obtain ⟨hiff, hspelled⟩ := scan_accepts_spelled "4 1,5h30ms* 2m"
  obtain ⟨spelled, hsame, hspells⟩ := (hiff _).1 hscan
  obtain rfl : words = spelled := List.append_cancel_right hsame
  exact ⟨hscan, hspells, (hspelled words hspells).2.1⟩

end DurationCalculator
