import DurationCalculator.Token.Scan
import DurationCalculator.TimeUnit

/-!
# The lexical grammar

What an expression is made of, without a scanner: an integer is digits; a duration is an amount
with a unit behind it, where an amount is digits with at most one decimal separator and any
digits behind it; the other tokens are one character each. An expression is the texts of its
tokens with spaces anywhere between them, and at least one space between an integer and a
literal that follows it (`Spells`).

Spaces stand outside the tokens only, so what is left of a text without its spaces is the texts
of its tokens (`Spells.filter_eq`).
-/

set_option autoImplicit false

namespace DurationCalculator

/-! ## Lexemes -/

/-- Digits; when `separated`, with a decimal separator and any digits behind them. -/
def IsAmount : Bool → List Char → Prop
  | false, text => Decimal.isNumeral text
  | true, text => ∃ whole separator fraction, Decimal.isNumeral whole ∧
      DurationLiteral.isSeparator separator ∧ (∀ c ∈ fraction, c.isDigit) ∧
      text = whole ++ separator :: fraction

/-- The literals that an expression may hold. -/
def Literal.WellFormed : Literal → Prop
  | integer text => Decimal.isNumeral text.toList
  | duration text => ∃ separated amount, ∃ unit : TimeUnit, IsAmount separated amount ∧
      text.toList = amount ++ unit.suffix

namespace Token

/-- The characters of a token. The tokens that no expression holds have none. -/
def chars : Token → List Char
  | literal l => l.text.toList
  | plus => ['+']
  | minus => ['-']
  | star => ['*']
  | slash => ['/']
  | leftParenthesis => ['(']
  | rightParenthesis => [')']
  | whitespace => []
  | endOfInput => []

/-- The tokens that an expression may hold. -/
def IsLexeme : Token → Prop
  | literal l => l.WellFormed
  | whitespace => False
  | endOfInput => False
  | _ => True

end Token

/-- The text in front of which an integer stands must begin with a space when the next token is a
literal. -/
def Separated (token : Token) (rest : List Token) (text : List Char) : Prop :=
  ∀ n l rest', token = .literal (.integer n) → rest = .literal l :: rest' →
    ∃ text', text = ' ' :: text'

/-- The texts that write a token list. -/
inductive Spells : List Token → List Char → Prop where
  | done : Spells [] []
  | space {tokens : List Token} {text : List Char} : Spells tokens text →
      Spells tokens (' ' :: text)
  | token {token : Token} {tokens : List Token} {text : List Char} : token.IsLexeme →
      Separated token tokens text → Spells tokens text →
      Spells (token :: tokens) (token.chars ++ text)

/-! ## Amounts -/

theorem isNumeral_iff {text : List Char} :
    Decimal.isNumeral text ↔ text ≠ [] ∧ ∀ c ∈ text, c.isDigit := by
  simp [Decimal.isNumeral]

theorem isAmount_singleton {c : Char} (h : c.isDigit) : IsAmount false [c] :=
  isNumeral_iff.2 ⟨nofun, by simpa using h⟩

/-- An amount may go on with a digit. -/
theorem IsAmount.append_digit {separated : Bool} {text : List Char} {c : Char}
    (h : IsAmount separated text) (hc : c.isDigit) : IsAmount separated (text ++ [c]) := by
  cases separated with
  | false =>
      obtain ⟨-, hdigits⟩ := isNumeral_iff.1 h
      refine isNumeral_iff.2 ⟨by simp, ?_⟩
      intro d hd
      rcases List.mem_append.1 hd with hd | hd
      · exact hdigits d hd
      · rwa [List.mem_singleton.1 hd]
  | true =>
      obtain ⟨whole, separator, fraction, hwhole, hseparator, hfraction, rfl⟩ := h
      refine ⟨whole, separator, fraction ++ [c], hwhole, hseparator, ?_, by simp⟩
      intro d hd
      rcases List.mem_append.1 hd with hd | hd
      · exact hfraction d hd
      · rwa [List.mem_singleton.1 hd]

/-- Digits may go on with a separator. -/
theorem IsAmount.append_separator {text : List Char} {c : Char} (h : IsAmount false text)
    (hc : DurationLiteral.isSeparator c) : IsAmount true (text ++ [c]) :=
  ⟨text, c, [], h, hc, nofun, rfl⟩

/-- Every character of an amount is a digit or a separator. -/
theorem IsAmount.mem {separated : Bool} {text : List Char} {c : Char}
    (h : IsAmount separated text) (hc : c ∈ text) :
    c.isDigit ∨ DurationLiteral.isSeparator c := by
  cases separated with
  | false => exact .inl ((isNumeral_iff.1 h).2 c hc)
  | true =>
      obtain ⟨whole, separator, fraction, hwhole, hseparator, hfraction, rfl⟩ := h
      rcases List.mem_append.1 hc with hc | hc
      · exact .inl ((isNumeral_iff.1 hwhole).2 c hc)
      · rcases List.mem_cons.1 hc with rfl | hc
        · exact .inr hseparator
        · exact .inl (hfraction c hc)

theorem IsAmount.ne_nil {separated : Bool} {text : List Char} (h : IsAmount separated text) :
    text ≠ [] := by
  cases separated with
  | false => exact (isNumeral_iff.1 h).1
  | true =>
      obtain ⟨whole, separator, fraction, -, -, -, rfl⟩ := h
      simp

/-! ## Spellings -/

namespace Token

/-- A lexeme has a character. -/
theorem IsLexeme.chars_ne_nil {token : Token} (h : token.IsLexeme) : token.chars ≠ [] := by
  cases token with
  | literal l =>
      cases l with
      | integer text => exact (isNumeral_iff.1 h).1
      | duration text =>
          obtain ⟨separated, amount, unit, hamount, htext⟩ := h
          intro hnil
          have hboth : amount ++ unit.suffix = [] := htext.symm.trans hnil
          exact hamount.ne_nil (List.append_eq_nil_iff.1 hboth).1
  | whitespace => exact h.elim
  | endOfInput => exact h.elim
  | _ => exact List.cons_ne_nil _ _

/-- A lexeme has no space in it. -/
theorem IsLexeme.space_notMem {token : Token} (h : token.IsLexeme) : ' ' ∉ token.chars := by
  have hspace : ¬(' '.isDigit ∨ DurationLiteral.isSeparator ' ') := by decide
  cases token with
  | literal l =>
      cases l with
      | integer text =>
          have hamount : IsAmount false text.toList := h
          intro hmem
          exact hspace (hamount.mem hmem)
      | duration text =>
          obtain ⟨separated, amount, unit, hamount, htext⟩ := h
          intro hmem
          have hboth : ' ' ∈ amount ++ unit.suffix := htext ▸ hmem
          rcases List.mem_append.1 hboth with hmem | hmem
          · exact hspace (hamount.mem hmem)
          · -- no suffix has a space in it
            cases unit <;> revert hmem <;> decide
  | whitespace => exact h.elim
  | endOfInput => exact h.elim
  | _ => simp [chars]

end Token

namespace Spells

/-- Only lexemes are spelled. -/
theorem isLexeme {tokens : List Token} {text : List Char} (h : Spells tokens text) :
    ∀ token ∈ tokens, token.IsLexeme := by
  induction h with
  | done =>
      intro token hmem
      cases hmem
  | space _ ih => exact ih
  | token hlexeme _ _ ih =>
      intro other hmem
      rcases List.mem_cons.1 hmem with rfl | hmem
      · exact hlexeme
      · exact ih other hmem

/-- Without its spaces, a text is the texts of its tokens. -/
theorem filter_eq {tokens : List Token} {text : List Char} (h : Spells tokens text) :
    text.filter (· ≠ ' ') = tokens.flatMap Token.chars := by
  induction h with
  | done => rfl
  | space _ ih => simpa using ih
  | @token token tokens text hlexeme _ _ ih =>
      have hkept : token.chars.filter (· ≠ ' ') = token.chars := by
        refine List.filter_eq_self.2 fun c hc => decide_eq_true ?_
        rintro rfl
        exact hlexeme.space_notMem hc
      rw [List.filter_append, hkept, ih, List.flatMap_cons]

/-- A spelled text starts with a space or with a token. -/
theorem of_cons {tokens : List Token} {c : Char} {text : List Char}
    (h : Spells tokens (c :: text)) :
    c = ' ' ∨ ∃ token rest more, tokens = token :: rest ∧ token.IsLexeme ∧
      token.chars = c :: more := by
  -- a spelling is of any text, so the first character is named by an equation
  generalize hwhole : c :: text = whole at h
  cases h with
  | done => cases hwhole
  | space _ => exact .inl (List.cons.inj hwhole).1
  | @token token rest text' hlexeme _ _ =>
      obtain ⟨first, more, hchars⟩ := List.exists_cons_of_ne_nil hlexeme.chars_ne_nil
      rw [hchars, List.cons_append] at hwhole
      obtain ⟨rfl, -⟩ := List.cons.inj hwhole
      exact .inr ⟨token, rest, more, rfl, hlexeme, hchars⟩

end Spells

namespace Scan

/-! ## Symbols -/

/-- A symbol is a lexeme of one character, and no literal. -/
theorem of_symbol? {c : Char} {token : Token} (h : symbol? c = some token) :
    token.IsLexeme ∧ token.chars = [c] ∧ ∀ l, token ≠ .literal l := by
  unfold symbol? at h
  split at h <;> cases h <;> exact ⟨trivial, rfl, nofun⟩

/-- A lexeme that is no literal is a symbol. -/
theorem exists_symbol? {token : Token} (h : token.IsLexeme) (hl : ∀ l, token ≠ .literal l) :
    ∃ c, symbol? c = some token ∧ token.chars = [c] := by
  cases token with
  | literal l => exact absurd rfl (hl l)
  | plus => exact ⟨'+', rfl, rfl⟩
  | minus => exact ⟨'-', rfl, rfl⟩
  | star => exact ⟨'*', rfl, rfl⟩
  | slash => exact ⟨'/', rfl, rfl⟩
  | leftParenthesis => exact ⟨'(', rfl, rfl⟩
  | rightParenthesis => exact ⟨')', rfl, rfl⟩
  | whitespace => exact h.elim
  | endOfInput => exact h.elim

/-- A symbol may follow a text without a space, whatever stands in front of it. -/
theorem separated_symbol {c : Char} {symbol : Token} (h : symbol? c = some symbol)
    (token : Token) (tokens : List Token) (text : List Char) :
    Separated token (symbol :: tokens) text := by
  intro n l rest _ hcons
  exact absurd (List.cons.inj hcons).1 ((of_symbol? h).2.2 l)

/-- A token that is no integer may be followed by anything. -/
theorem separated_of_ne {token : Token} (h : ∀ n, token ≠ .literal (.integer n))
    (tokens : List Token) (text : List Char) : Separated token tokens text :=
  fun n _ _ htoken => absurd htoken (h n)

theorem spells_symbol {c : Char} {symbol : Token} {tokens : List Token} {text : List Char}
    (h : symbol? c = some symbol) (hrest : Spells tokens text) :
    Spells (symbol :: tokens) (c :: text) := by
  obtain ⟨hlexeme, hchars, hliteral⟩ := of_symbol? h
  have hspells := Spells.token hlexeme
    (separated_of_ne (fun n => hliteral (.integer n)) tokens text) hrest
  rwa [hchars] at hspells

theorem spells_duration {text : String} {tokens : List Token} {rest : List Char}
    (h : (Literal.duration text).WellFormed) (hrest : Spells tokens rest) :
    Spells (.literal (.duration text) :: tokens) (text.toList ++ rest) :=
  Spells.token h (separated_of_ne (fun n h => by cases h) tokens rest) hrest

/-- Durations may stand side by side. -/
theorem spells_durations {α : Type} {text : α → String} {xs : List α}
    (h : ∀ x ∈ xs, (Literal.duration (text x)).WellFormed) :
    Spells (xs.map fun x => .literal (.duration (text x)))
      (xs.flatMap fun x => (text x).toList) := by
  induction xs with
  | nil => exact .done
  | cons x xs ih =>
      obtain ⟨hx, hxs⟩ := List.forall_mem_cons.1 h
      exact spells_duration hx (ih hxs)

end Scan

end DurationCalculator
