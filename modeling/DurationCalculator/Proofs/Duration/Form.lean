import Mathlib.Data.List.DropRight
import DurationCalculator.Proofs.Decimal.Digits
import DurationCalculator.TimeUnit

/-!
# Canonical texts

The texts that stand for durations, without the function that writes them. A text is a sequence of
parts, each an amount with its unit, behind a minus sign or not (`Canonical`). What the text is
worth is the sum of its parts, as an exact number of nanoseconds.

A text can be cut into parts in one way (`eq_of_charsOf_eq`), so it is worth one number only.
-/

set_option autoImplicit false

namespace DurationCalculator

namespace TimeUnit

/-- How a canonical text writes the unit: as literals do, but with a micro sign. -/
def symbol : TimeUnit → List Char
  | microsecond => ['µ', 's']
  | unit => unit.suffix

/-- The most digits that an amount of the unit may have behind the point. The last of them counts
nanoseconds. -/
def places : TimeUnit → Nat
  | second => 9
  | millisecond => 6
  | microsecond => 3
  | _ => 0

end TimeUnit

namespace Duration

/-! ## Parts -/

/-- A part of a canonical text: an amount, with the digits `fraction` behind a point if there are
any, and its unit. -/
@[ext]
structure Part where
  whole : List Char
  fraction : List Char
  unit : TimeUnit

/-- A point and the digits behind it; nothing if there are none. -/
def pointed (fraction : List Char) : List Char :=
  if fraction = [] then [] else '.' :: fraction

namespace Part

/-- The characters of a part. -/
def chars (p : Part) : List Char := p.whole ++ pointed p.fraction ++ p.unit.symbol

/-- What a part is worth, in nanoseconds. -/
def nanoseconds (p : Part) : Rat := Decimal.exact p.whole p.fraction * p.unit.length.count

/-- The number of whole units in a part. -/
def count (p : Part) : Nat := Decimal.value p.whole

/-- No digit of a part is superfluous. -/
structure WellFormed (p : Part) : Prop where
  whole : Decimal.IsPlain p.whole
  fraction : Decimal.AllDigits p.fraction
  places : p.fraction.length ≤ p.unit.places
  trimmed : p.fraction.getLast? ≠ some '0'

end Part

/-- The characters of a sequence of parts. -/
def charsOf (parts : List Part) : List Char := parts.flatMap Part.chars

/-- What a sequence of parts is worth, in nanoseconds. -/
def worth (parts : List Part) : Rat := (parts.map Part.nanoseconds).sum

/-! ## Texts -/

/-- The units that a text may have, and how large their counts may be. Below a second there is one
unit. From a second on the smaller units are carried, and the largest one that is reached leads. -/
inductive Shape : List Part → Prop where
  | small {p : Part} : p.unit = .nanosecond ∨ p.unit = .microsecond ∨ p.unit = .millisecond →
      1 ≤ p.count → p.count ≤ 999 → Shape [p]
  | seconds {s : Part} : s.unit = .second → 1 ≤ s.count → s.count < 60 → Shape [s]
  | minutes {m s : Part} : m.unit = .minute → s.unit = .second →
      1 ≤ m.count → m.count < 60 → s.count < 60 → Shape [m, s]
  | hours {h m s : Part} : h.unit = .hour → m.unit = .minute → s.unit = .second →
      1 ≤ h.count → m.count < 60 → s.count < 60 → Shape [h, m, s]

/-- The parts of a canonical text that is not zero. -/
structure IsMagnitude (parts : List Part) : Prop where
  wellFormed : ∀ p ∈ parts, p.WellFormed
  shape : Shape parts

/-- A text is canonical and worth `q` nanoseconds. -/
inductive Canonical : List Char → Rat → Prop where
  | zero : Canonical ['0', 's'] 0
  | positive {parts : List Part} : IsMagnitude parts → Canonical (charsOf parts) (worth parts)
  | negative {parts : List Part} : IsMagnitude parts →
      Canonical ('-' :: charsOf parts) (-worth parts)

/-! ## Texts have one sequence of parts -/

/-- The characters of an amount. -/
def isAmountChar (c : Char) : Bool := c.isDigit || c == '.'

theorem symbol_injective {u v : TimeUnit} (h : u.symbol = v.symbol) : u = v := by
  revert h
  cases u <;> cases v <;> decide

theorem symbol_eq_cons (u : TimeUnit) :
    ∃ c rest, u.symbol = c :: rest ∧ ¬isAmountChar c ∧ (c :: rest).all (!·.isDigit) := by
  cases u <;> exact ⟨_, _, rfl, by decide, by decide⟩

namespace Part

theorem WellFormed.exists_cons {p : Part} (h : p.WellFormed) :
    ∃ c rest, p.chars = c :: rest ∧ c.isDigit := by
  obtain ⟨c, rest, hwhole⟩ := List.exists_cons_of_ne_nil h.whole.ne_nil
  have hdigit : c.isDigit := h.whole.allDigits c (by simp [hwhole])
  exact ⟨c, rest ++ pointed p.fraction ++ p.unit.symbol, by simp [chars, hwhole], hdigit⟩

theorem WellFormed.isAmountChar {p : Part} (h : p.WellFormed) :
    ∀ c ∈ p.whole ++ pointed p.fraction, isAmountChar c := by
  intro c hc
  rcases List.mem_append.1 hc with hc | hc
  · simp [Duration.isAmountChar, h.whole.allDigits c hc]
  · by_cases hnil : p.fraction = []
    · simp [pointed, hnil] at hc
    · rw [pointed, if_neg hnil] at hc
      rcases List.mem_cons.1 hc with rfl | hc
      · rfl
      · simp [Duration.isAmountChar, h.fraction c hc]

/-- An amount is cut into its digits in one way. -/
theorem eq_of_amount_eq {p q : Part} (hp : p.WellFormed) (hq : q.WellFormed)
    (h : p.whole ++ pointed p.fraction = q.whole ++ pointed q.fraction) :
    p.whole = q.whole ∧ p.fraction = q.fraction := by
  have hpoint (fraction : List Char) : ∀ c ∈ (pointed fraction).head?, ¬c.isDigit := by
    intro c hc
    by_cases hnil : fraction = []
    · simp [pointed, hnil] at hc
    · rw [pointed, if_neg hnil] at hc
      obtain rfl : '.' = c := by simpa using hc
      decide
  obtain ⟨hwhole, hpointed⟩ := List.span_unique hp.whole.allDigits hq.whole.allDigits
    (hpoint p.fraction) (hpoint q.fraction) h
  refine ⟨hwhole, ?_⟩
  by_cases hpnil : p.fraction = [] <;> by_cases hqnil : q.fraction = [] <;>
    simp_all [pointed]

/-- A part is determined by its characters, in front of any text that does not start with the
letters of a unit. -/
theorem eq_of_chars_append_eq {p q : Part} (hp : p.WellFormed) (hq : q.WellFormed)
    {rest rest' : List Char} (hrest : ∀ c ∈ rest.head?, c.isDigit)
    (hrest' : ∀ c ∈ rest'.head?, c.isDigit) (h : p.chars ++ rest = q.chars ++ rest') :
    p = q ∧ rest = rest' := by
  obtain ⟨c, cs, hpsymbol, hc, hpletters⟩ := symbol_eq_cons p.unit
  obtain ⟨d, ds, hqsymbol, hd, hqletters⟩ := symbol_eq_cons q.unit
  simp only [chars, List.append_assoc] at h
  rw [← List.append_assoc, ← List.append_assoc q.whole] at h
  -- the amount ends in front of the first letter, and the letters in front of the next digit
  obtain ⟨hamount, hunits⟩ := List.span_unique hp.isAmountChar hq.isAmountChar
    (by simpa [hpsymbol] using hc) (by simpa [hqsymbol] using hd) h
  have hletters : p.unit.symbol = q.unit.symbol ∧ rest = rest' := by
    refine List.span_unique (p := fun c => !c.isDigit) ?_ ?_ ?_ ?_ hunits
    · simpa [hpsymbol] using hpletters
    · simpa [hqsymbol] using hqletters
    · simpa using hrest
    · simpa using hrest'
  obtain ⟨hwhole, hfraction⟩ := eq_of_amount_eq hp hq hamount
  exact ⟨Part.ext hwhole hfraction (symbol_injective hletters.1), hletters.2⟩

end Part

theorem head?_charsOf {parts : List Part} (h : ∀ p ∈ parts, p.WellFormed) :
    ∀ c ∈ (charsOf parts).head?, c.isDigit := by
  intro c hc
  cases parts with
  | nil => simp [charsOf] at hc
  | cons p parts =>
      obtain ⟨d, rest, hchars, hd⟩ := (h p List.mem_cons_self).exists_cons
      simp only [charsOf, List.flatMap_cons, hchars, List.cons_append, List.head?_cons,
        Option.mem_some_iff] at hc
      exact hc ▸ hd

/-- A text has one sequence of parts. -/
theorem eq_of_charsOf_eq {parts others : List Part} (h : ∀ p ∈ parts, p.WellFormed)
    (hothers : ∀ p ∈ others, p.WellFormed) (hchars : charsOf parts = charsOf others) :
    parts = others := by
  induction parts generalizing others with
  | nil =>
      cases others with
      | nil => rfl
      | cons q others =>
          obtain ⟨d, rest, hq, -⟩ := (hothers q List.mem_cons_self).exists_cons
          simp [charsOf, hq] at hchars
  | cons p parts ih =>
      cases others with
      | nil =>
          obtain ⟨d, rest, hp, -⟩ := (h p List.mem_cons_self).exists_cons
          simp [charsOf, hp] at hchars
      | cons q others =>
          simp only [List.forall_mem_cons] at h hothers
          obtain ⟨rfl, hrest⟩ := Part.eq_of_chars_append_eq h.1 hothers.1 (head?_charsOf h.2)
            (head?_charsOf hothers.2) hchars
          rw [ih h.2 hothers.2 hrest]

end Duration

end DurationCalculator
