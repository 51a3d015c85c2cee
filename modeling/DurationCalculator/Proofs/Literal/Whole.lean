import DurationCalculator.Literal
import DurationCalculator.Proofs.Decimal.Digits
import DurationCalculator.Proofs.Token.Lexeme

/-!
# Literals without a separator

The digits of such a literal are a number of any size. It is worth that many of its unit, or that
integer, and is refused exactly when this lies outside the 64-bit range (`read_whole`,
`parse_integer_digits`). That the digits alone are checked first makes no difference, since no
unit is shorter than a nanosecond.

A text without a separator is cut in front of its first character that is not a digit, and what it
is read as depends on the two parts only (`readWhole_append`). So every text without a separator
has one of three faults, or the exact duration (`whole_literals_exact`).
-/

set_option autoImplicit false

namespace DurationCalculator

/-- Every unit is at least as long as a nanosecond. -/
theorem TimeUnit.one_le_count_length (unit : TimeUnit) : 1 ≤ unit.length.count := by
  cases unit <;> decide

/-- Where a number alone is too large, it is too large for every unit. -/
theorem TimeUnit.bind_mul?_eq_ofCount? (unit : TimeUnit) {n : Int} (hn : 0 ≤ n) :
    ((Checked.ofInt? n).bind fun count => unit.length.mul? count) =
      Duration.ofCount? (unit.length.count * n) := by
  cases hcount : Checked.ofInt? n with
  | some w =>
      have hw : w.toInt = n := Checked.ofInt?_eq_some_iff.1 hcount
      rw [← hw]
      rfl
  | none =>
      have hlarge : Duration.ofCount? n = none := by
        rw [Duration.ofCount?, hcount]
        rfl
      have hle : n ≤ unit.length.count * n := le_mul_of_one_le_left hn unit.one_le_count_length
      exact (Duration.ofCount?_eq_none_of_le hlarge hn hle).symm

/-- A unit is named by its suffix and by nothing else. -/
theorem TimeUnit.ofSuffix?_eq_some_iff {text : List Char} {unit : TimeUnit} :
    ofSuffix? text = some unit ↔ text = unit.suffix := by
  constructor
  · intro h
    have hnamed := List.find?_some h
    exact (of_decide_eq_true hnamed).symm
  · rintro rfl
    exact ofSuffix?_suffix unit

theorem TimeUnit.ofSuffix?_eq_none {text : List Char} (h : ∀ unit : TimeUnit, text ≠ unit.suffix) :
    ofSuffix? text = none := by
  rw [Option.eq_none_iff_forall_ne_some]
  intro unit hunit
  exact h unit (ofSuffix?_eq_some_iff.1 hunit)

/-- A count that is not negative is refused exactly when it is larger than the largest duration. -/
theorem Duration.exists_ofCount?_of_le {n : Int} (hn : 0 ≤ n) (hle : n ≤ Int64.maxValue.toInt) :
    ∃ d, ofCount? n = some d ∧ d.count = n := by
  have hmin : Int64.minValue.toInt ≤ 0 := by decide
  obtain ⟨d, hd⟩ := exists_count_eq ⟨hmin.trans hn, hle⟩
  exact ⟨d, ofCount?_eq_some_iff.2 hd, hd⟩

theorem Duration.ofCount?_eq_none_of_lt {n : Int} (h : Int64.maxValue.toInt < n) :
    ofCount? n = none := by
  rw [ofCount?_eq_none_iff]
  rintro ⟨-, hle⟩
  omega

namespace DurationLiteral

/-- A duration that lies outside the 64-bit range is a fault of its literal. -/
def orOutOfRange : Option Duration → Except LiteralFault Duration
  | none => .error .outOfRange
  | some d => .ok d

theorem orOutOfRange_eq_ok_iff {found : Option Duration} {d : Duration} :
    orOutOfRange found = .ok d ↔ found = some d := by
  cases found <;> simp [orOutOfRange]

theorem orOutOfRange_eq_error_iff {found : Option Duration} {fault : LiteralFault} :
    orOutOfRange found = .error fault ↔ found = none ∧ fault = .outOfRange := by
  cases found <;> simp [orOutOfRange, eq_comm]

theorem parse_eq_ok_iff {text : String} {d : Duration} :
    parse text = .ok d ↔ read text.toList = .ok d := by
  rw [parse]
  cases read text.toList <;> simp [Except.mapError]

/-- A literal names itself in its error. -/
theorem parse_eq_error_iff {text : String} {e : LiteralError} :
    parse text = .error e ↔ e.literal = text ∧ read text.toList = .error e.fault := by
  obtain ⟨fault, literal⟩ := e
  rw [parse]
  cases read text.toList with
  | ok d => simp [Except.mapError]
  | error other => simp [Except.mapError, eq_comm, and_comm]

theorem isSeparator_of_isDigit {c : Char} (h : c.isDigit) : isSeparator c = false := by
  cases hc : isSeparator c with
  | false => rfl
  | true =>
      have hpoint : c = '.' ∨ c = ',' := by simpa [isSeparator] using hc
      rcases hpoint with rfl | rfl <;> exact absurd h (by decide)

/-- A unit has neither separators nor digits in it. -/
theorem letters_suffix (unit : TimeUnit) :
    ∀ c ∈ unit.suffix, isSeparator c = false ∧ c.isDigit = false := by
  have hall : unit.suffix.all (fun c => !isSeparator c && !c.isDigit) := by
    cases unit <;> decide
  simpa using hall

theorem head?_suffix (unit : TimeUnit) : ∀ c ∈ unit.suffix.head?, ¬c.isDigit := by
  intro c hc
  rw [(letters_suffix unit c (List.mem_of_mem_head? hc)).2]
  exact Bool.false_ne_true

theorem wholeUnits?_eq_ofCount? (digits : List Char) (unit : TimeUnit) :
    wholeUnits? digits unit =
      Duration.ofCount? (unit.length.count * (Decimal.value digits : Int)) :=
  unit.bind_mul?_eq_ofCount? (Int.natCast_nonneg _)

theorem read_of_not_isSeparator {text : List Char} (h : ∀ c ∈ text, isSeparator c = false) :
    read text = readWhole text := by
  have hany : text.any isSeparator = false := by
    rw [List.any_eq_false]
    intro c hc
    rw [h c hc]
    exact Bool.false_ne_true
  rw [read, hany, if_neg Bool.false_ne_true]

/-- Digits are cut off in front of the first other character. The unit is looked up first, then the
digits are. -/
theorem readWhole_append {digits rest : List Char} (hdigits : ∀ c ∈ digits, c.isDigit)
    (hrest : ∀ c ∈ rest.head?, ¬c.isDigit) :
    readWhole (digits ++ rest) =
      match TimeUnit.ofSuffix? rest with
      | none => .error .unknownUnit
      | some unit =>
          if digits = [] then .error .invalidNumber
          else
            orOutOfRange (Duration.ofCount? (unit.length.count * (Decimal.value digits : Int))) := by
  obtain ⟨htake, hdrop⟩ := List.span_append hdigits hrest
  rw [readWhole, htake, hdrop]
  cases TimeUnit.ofSuffix? rest with
  | none => rfl
  | some unit =>
      simp only [List.isEmpty_iff, wholeUnits?_eq_ofCount?]
      rfl

/-- Digits with a unit behind them are worth that many of the unit, if that lies in the 64-bit
range. -/
theorem read_whole {digits : List Char} (h : Decimal.isNumeral digits) (unit : TimeUnit) :
    read (digits ++ unit.suffix) =
      orOutOfRange (Duration.ofCount? (unit.length.count * (Decimal.value digits : Int))) := by
  obtain ⟨hne, hdigits⟩ := isNumeral_iff.1 h
  have hseparator : ∀ c ∈ digits ++ unit.suffix, isSeparator c = false := by
    intro c hc
    rcases List.mem_append.1 hc with hc | hc
    · exact isSeparator_of_isDigit (hdigits c hc)
    · exact (letters_suffix unit c hc).1
  rw [read_of_not_isSeparator hseparator, readWhole_append hdigits (head?_suffix unit),
    TimeUnit.ofSuffix?_suffix]
  exact if_neg hne

/-- Every text without a separator is exact. It is cut in front of its first character that is not
a digit. If what follows is no unit, the unit is unknown; otherwise, if there are no digits, the
number is missing; otherwise the literal is worth as many of the unit as its digits say, however
many there are, and out of range exactly when that is more than the largest duration. -/
theorem whole_literals_exact {text : String} (h : ∀ c ∈ text.toList, isSeparator c = false) :
    ∃ digits rest, text.toList = digits ++ rest ∧ (∀ c ∈ digits, c.isDigit) ∧
      (∀ c ∈ rest.head?, ¬c.isDigit) ∧
      ((∀ unit : TimeUnit, rest ≠ unit.suffix) → parse text = .error ⟨.unknownUnit, text⟩) ∧
      ∀ unit : TimeUnit, rest = unit.suffix →
        let count : Int := Decimal.value digits * unit.length.count
        (digits = [] → parse text = .error ⟨.invalidNumber, text⟩) ∧
        (digits ≠ [] → count ≤ Int64.maxValue.toInt →
          ∃ d, parse text = .ok d ∧ d.count = count) ∧
        (digits ≠ [] → Int64.maxValue.toInt < count →
          parse text = .error ⟨.outOfRange, text⟩) := by
  obtain ⟨digits, rest, htext, hdigits, hrest⟩ := List.exists_span Char.isDigit text.toList
  have hread := read_of_not_isSeparator h
  rw [htext, readWhole_append hdigits hrest, ← htext] at hread
  refine ⟨digits, rest, htext, hdigits, hrest, ?_, ?_⟩
  · intro hunknown
    rw [TimeUnit.ofSuffix?_eq_none hunknown] at hread
    exact parse_eq_error_iff.2 ⟨rfl, hread⟩
  · intro unit hunit count
    rw [hunit, TimeUnit.ofSuffix?_suffix] at hread
    dsimp only at hread
    rw [mul_comm] at hread
    refine ⟨?_, ?_, ?_⟩
    · intro hnone
      exact parse_eq_error_iff.2 ⟨rfl, hread.trans (if_pos hnone)⟩
    · intro hsome hle
      have hnonneg : 0 ≤ count :=
        mul_nonneg (Int.natCast_nonneg _) (zero_le_one.trans unit.one_le_count_length)
      obtain ⟨d, hd, hcount⟩ := Duration.exists_ofCount?_of_le hnonneg hle
      refine ⟨d, parse_eq_ok_iff.2 ?_, hcount⟩
      exact (hread.trans (if_neg hsome)).trans (orOutOfRange_eq_ok_iff.2 hd)
    · intro hsome hlt
      refine parse_eq_error_iff.2 ⟨rfl, (hread.trans (if_neg hsome)).trans ?_⟩
      exact orOutOfRange_eq_error_iff.2 ⟨Duration.ofCount?_eq_none_of_lt hlt, rfl⟩

/-- Zeros in front do not count, one hour more is out of range, and letters alone have no number. -/
theorem whole_literals_exact_in_hours :
    let longest := "0000000000002562047h"
    let longer := "0000000000002562048h"
    let bare := "ms"
    ((∀ c ∈ longest.toList, isSeparator c = false) ∧
      ∃ d, parse longest = .ok d ∧ d.count = 9223369200000000000) ∧
    ((∀ c ∈ longer.toList, isSeparator c = false) ∧ parse longer = .error ⟨.outOfRange, longer⟩) ∧
    ((∀ c ∈ bare.toList, isSeparator c = false) ∧ parse bare = .error ⟨.invalidNumber, bare⟩) := by
  intro longest longer bare
  have hplain {text : String} (h : text.toList.all fun c => !isSeparator c) :
      ∀ c ∈ text.toList, isSeparator c = false := by simpa using h
  have hlongest : ∀ c ∈ longest.toList, isSeparator c = false := hplain (by decide)
  have hlonger : ∀ c ∈ longer.toList, isSeparator c = false := hplain (by decide)
  have hbare : ∀ c ∈ bare.toList, isSeparator c = false := hplain (by decide)
  -- the cut in front of the unit is the only one
  have hcut {text : String} {unit : TimeUnit} {digits' digits rest : List Char}
      (htext' : text.toList = digits' ++ unit.suffix) (hdigits' : digits'.all Char.isDigit)
      (htext : text.toList = digits ++ rest) (hdigits : ∀ c ∈ digits, c.isDigit)
      (hrest : ∀ c ∈ rest.head?, ¬c.isDigit) : digits = digits' ∧ rest = unit.suffix :=
    List.span_unique hdigits (List.all_eq_true.1 hdigits') hrest (head?_suffix unit)
      (htext.symm.trans htext')
  have hlongestCut : longest.toList = "0000000000002562047".toList ++ TimeUnit.hour.suffix := by
    decide
  have hlongerCut : longer.toList = "0000000000002562048".toList ++ TimeUnit.hour.suffix := by
    decide
  have hbareCut : bare.toList = [] ++ TimeUnit.millisecond.suffix := by decide
  refine ⟨⟨hlongest, ?_⟩, ⟨hlonger, ?_⟩, ⟨hbare, ?_⟩⟩
  · obtain ⟨digits, rest, htext, hdigits, hrest, -, hunits⟩ := whole_literals_exact hlongest
    obtain ⟨rfl, hunit⟩ := hcut hlongestCut (by decide) htext hdigits hrest
    exact (hunits .hour hunit).2.1 (by decide) (by decide)
  · obtain ⟨digits, rest, htext, hdigits, hrest, -, hunits⟩ := whole_literals_exact hlonger
    obtain ⟨rfl, hunit⟩ := hcut hlongerCut (by decide) htext hdigits hrest
    exact (hunits .hour hunit).2.2 (by decide) (by decide)
  · obtain ⟨digits, rest, htext, hdigits, hrest, -, hunits⟩ := whole_literals_exact hbare
    obtain ⟨rfl, hunit⟩ := hcut hbareCut rfl htext hdigits hrest
    exact (hunits .millisecond hunit).1 rfl

end DurationLiteral

theorem Decimal.splitSign_of_head? {text : List Char} (h : ∀ c ∈ text.head?, c ≠ '+' ∧ c ≠ '-') :
    splitSign text = (false, text) := by
  unfold splitSign
  split
  next => exact absurd rfl (h '-' rfl).2
  next => exact absurd rfl (h '+' rfl).1
  next => rfl

/-- A digit is no sign. -/
theorem Decimal.splitSign_of_isDigit {c : Char} (h : c.isDigit) (rest : List Char) :
    splitSign (c :: rest) = (false, c :: rest) := by
  refine splitSign_of_head? ?_
  intro d hd
  obtain rfl : c = d := by simpa using hd
  exact ⟨ne_of_isDigit h rfl, ne_of_isDigit h rfl⟩

/-- At most one sign with digits behind it is the integer that the digits denote, with that sign. -/
theorem IntegerLiteral.read?_of_splitSign {text ds : List Char} {negative : Bool}
    (hsign : Decimal.splitSign text = (negative, ds)) (h : Decimal.isNumeral ds) :
    read? text = Checked.ofInt? (Decimal.signed negative (Decimal.value ds)) := by
  rw [read?, hsign]
  exact if_pos h

theorem IntegerLiteral.parse_eq_ok_of_read? {literal : String} {n : Int64}
    (h : read? literal.toList = some n) : parse literal = .ok n := by
  rw [parse, h]

/-- Digits are the integer that they denote, if it lies in the 64-bit range. -/
theorem IntegerLiteral.parse_integer_digits {literal : String}
    (h : Decimal.isNumeral literal.toList) :
    parse literal =
      match Checked.ofInt? (Decimal.value literal.toList : Int) with
      | none => .error ⟨.invalidInteger, literal⟩
      | some n => .ok n := by
  obtain ⟨hne, hdigits⟩ := isNumeral_iff.1 h
  have hsign : Decimal.splitSign literal.toList = (false, literal.toList) := by
    obtain ⟨c, rest, hchars⟩ := List.exists_cons_of_ne_nil hne
    rw [hchars] at hdigits ⊢
    exact Decimal.splitSign_of_isDigit (hdigits c List.mem_cons_self) rest
  have hread : read? literal.toList = Checked.ofInt? (Decimal.value literal.toList : Int) :=
    read?_of_splitSign hsign h
  rw [parse, hread]
  cases Checked.ofInt? (Decimal.value literal.toList : Int) <;> rfl

end DurationCalculator
