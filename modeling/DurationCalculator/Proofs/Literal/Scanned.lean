import DurationCalculator.Proofs.Literal.Fraction
import DurationCalculator.Proofs.Token.Acceptance

/-!
# Literals of scanned expressions

The scanner reads a literal forward and accepts digits, a separator with any digits behind it, and a
unit. The reader of duration literals looks for the unit from the end: behind a digit it is one
letter, and otherwise it takes two characters. The two agree but for a separator with a unit of one
letter directly behind it, where the reader cuts the separator off as a part of the unit
(`read_point`). So a literal of a scanned expression has no faults but that one, a fraction of
nanoseconds, and a value that is out of range (`scanned_literals_read`).
-/

set_option autoImplicit false

namespace DurationCalculator

namespace DurationLiteral

/-! ## Cutting at the unit -/

/-- A unit of two letters is cut off as a whole, whatever stands in front of it. -/
theorem splitUnit?_two_letters (front : List Char) {unit : TimeUnit}
    (h : unit.suffix.length = 2) :
    splitUnit? (front ++ unit.suffix) = some (front, unit.suffix) := by
  rw [splitUnit?, List.reverse_append]
  cases unit with
  | hour | minute | second => cases h
  | millisecond | microsecond | nanosecond => simp +decide [TimeUnit.suffix]

/-- Directly behind a point, a unit of one letter is cut off together with the point. -/
theorem splitUnit?_one_letter (front : List Char) {unit : TimeUnit}
    (h : unit.suffix.length = 1) :
    splitUnit? ((front ++ ['.']) ++ unit.suffix) = some (front, '.' :: unit.suffix) := by
  rw [splitUnit?, List.reverse_append, List.reverse_append]
  cases unit with
  | hour | minute | second => simp +decide [TimeUnit.suffix]
  | millisecond | microsecond | nanosecond => cases h

/-- A point in front of a letter is no unit. -/
theorem ofSuffix?_point (unit : TimeUnit) : TimeUnit.ofSuffix? ('.' :: unit.suffix) = none := by
  cases unit <;> decide

/-- A separator directly in front of a unit of one letter makes the unit unknown. -/
theorem read_point {whole : List Char} {separator : Char} {unit : TimeUnit}
    (hwhole : Decimal.isNumeral whole) (hseparator : isSeparator separator)
    (hunit : unit.suffix.length = 1) :
    read ((whole ++ [separator]) ++ unit.suffix) = .error .unknownUnit := by
  have hany : ((whole ++ [separator]) ++ unit.suffix).any isSeparator := by simp [hseparator]
  have hmap : ((whole ++ [separator]) ++ unit.suffix).map (fun c => if c = ',' then '.' else c) =
      (whole ++ ['.']) ++ unit.suffix :=
    map_separator (isNumeral_iff.1 hwhole).2 hseparator (List.forall_mem_nil _) unit
  rw [read, hany, if_pos rfl, readFractional, hmap, splitUnit?_one_letter whole hunit]
  dsimp only
  rw [Numeral.parse?_digits hwhole]
  dsimp only
  rw [ofSuffix?_point]

theorem length_suffix (unit : TimeUnit) : unit.suffix.length = 1 ∨ unit.suffix.length = 2 := by
  cases unit <;> decide

/-- With a separator, all depends on what stands directly behind it, and on the unit. -/
theorem read_amount {whole fraction : List Char} {separator : Char} {unit : TimeUnit}
    (hwhole : Decimal.isNumeral whole) (hseparator : isSeparator separator)
    (hfraction : ∀ c ∈ fraction, c.isDigit) :
    read ((whole ++ separator :: fraction) ++ unit.suffix) =
      if fraction = [] ∧ unit.suffix.length = 1 then .error .unknownUnit
      else if unit = .nanosecond then .error .fractionalNanoseconds
      else orOutOfRange (Duration.ofCount?
        (countOf (Binary64.rounded (Decimal.exact whole fraction)) unit)) := by
  by_cases hpoint : fraction = [] ∧ unit.suffix.length = 1
  · obtain ⟨rfl, hunit⟩ := hpoint
    rw [if_pos ⟨rfl, hunit⟩, read_point hwhole hseparator hunit]
  · rw [if_neg hpoint]
    refine read_of_splitUnit? hwhole hseparator hfraction ?_
    rcases length_suffix unit with hone | htwo
    · -- the last digit of the fraction keeps the point from being cut off
      have hne : fraction ≠ [] := fun hnil => hpoint ⟨hnil, hone⟩
      exact splitUnit?_behind_fraction whole (isNumeral_iff.2 ⟨hne, hfraction⟩) unit
    · exact splitUnit?_two_letters _ htwo

/-! ## Faults that can be seen -/

/-- A separator stands directly in front of a unit of one letter. -/
def PointsAtUnit (text : List Char) : Prop :=
  ∃ front separator letter, isSeparator separator ∧ letter ∈ ['h', 'm', 's'] ∧
    text = front ++ [separator, letter]

/-- The text has a separator, and ends in the unit of nanoseconds. -/
def DividesNanoseconds (text : List Char) : Prop :=
  (∃ separator ∈ text, isSeparator separator) ∧ ['n', 's'] <:+ text

/-- The separator in front of the unit is the last character of the amount. -/
theorem pointsAtUnit_append_iff {amount : List Char} {unit : TimeUnit} :
    PointsAtUnit (amount ++ unit.suffix) ↔
      (∃ separator ∈ amount.getLast?, isSeparator separator) ∧ unit.suffix.length = 1 := by
  constructor
  · rintro ⟨front, separator, letter, hseparator, -, htext⟩
    rcases length_suffix unit with hone | htwo
    · have htext' : amount ++ unit.suffix = (front ++ [separator]) ++ [letter] := by simp [htext]
      obtain ⟨rfl, -⟩ := List.append_inj' htext' hone
      exact ⟨⟨separator, by simp, hseparator⟩, hone⟩
    · -- no letter of a unit is a separator
      obtain ⟨-, hsuffix⟩ := List.append_inj' htext htwo
      have hletter := (letters_suffix unit separator (by simp [hsuffix])).1
      rw [hseparator] at hletter
      cases hletter
  · rintro ⟨⟨separator, hlast, hseparator⟩, hone⟩
    obtain ⟨front, rfl⟩ := List.getLast?_eq_some_iff.1 hlast
    obtain ⟨letter, hletter, hsuffix⟩ : ∃ letter ∈ ['h', 'm', 's'], unit.suffix = [letter] := by
      cases unit with
      | hour => exact ⟨'h', by simp, rfl⟩
      | minute => exact ⟨'m', by simp, rfl⟩
      | second => exact ⟨'s', by simp, rfl⟩
      | millisecond | microsecond | nanosecond => cases hone
    exact ⟨front, separator, letter, hseparator, hletter, by simp [hsuffix]⟩

/-- An amount in front of a unit ends in the unit of nanoseconds only if that is the unit. -/
theorem suffix_nanoseconds_iff {separated : Bool} {amount : List Char}
    (h : IsAmount separated amount) (unit : TimeUnit) :
    ['n', 's'] <:+ amount ++ unit.suffix ↔ unit = .nanosecond := by
  constructor
  · rintro ⟨front, htext⟩
    rcases length_suffix unit with hone | htwo
    · -- the first letter of the unit would be the last character of the amount
      have htext' : (front ++ ['n']) ++ ['s'] = amount ++ unit.suffix := by simp [← htext]
      obtain ⟨rfl, -⟩ := List.append_inj' htext' hone.symm
      exact absurd (h.mem (c := 'n') (by simp)) (by decide)
    · obtain ⟨-, hsuffix⟩ := List.append_inj' htext htwo.symm
      cases unit <;> first | rfl | cases hsuffix
  · rintro rfl
    exact List.suffix_append _ _

/-- An amount has a separator exactly when it says so, and a unit has none. -/
theorem exists_separator_iff {separated : Bool} {amount : List Char} (h : IsAmount separated amount)
    (unit : TimeUnit) :
    (∃ separator ∈ amount ++ unit.suffix, isSeparator separator) ↔ separated = true := by
  constructor
  · rintro ⟨separator, hmem, hseparator⟩
    cases separated with
    | true => rfl
    | false =>
        have hnone : isSeparator separator = false := by
          rcases List.mem_append.1 hmem with hmem | hmem
          · exact isSeparator_of_isDigit ((isNumeral_iff.1 h).2 separator hmem)
          · exact (letters_suffix unit separator hmem).1
        exact hnone.symm.trans hseparator
  · rintro rfl
    obtain ⟨whole, separator, fraction, -, hseparator, -, rfl⟩ := h
    exact ⟨separator, by simp, hseparator⟩

theorem dividesNanoseconds_append_iff {separated : Bool} {amount : List Char}
    (h : IsAmount separated amount) (unit : TimeUnit) :
    DividesNanoseconds (amount ++ unit.suffix) ↔ separated = true ∧ unit = .nanosecond :=
  and_congr (exists_separator_iff h unit) (suffix_nanoseconds_iff h unit)

/-- In front of the unit stands a digit. -/
theorem not_pointsAtUnit_of_isDigit {amount : List Char} (h : ∀ c ∈ amount.getLast?, c.isDigit)
    (unit : TimeUnit) : ¬PointsAtUnit (amount ++ unit.suffix) := by
  rw [pointsAtUnit_append_iff]
  rintro ⟨⟨separator, hlast, hseparator⟩, -⟩
  have hnone := isSeparator_of_isDigit (h separator hlast)
  exact Bool.false_ne_true (hnone.symm.trans hseparator)

/-- The separator stands in front of the unit when no digit is behind it. -/
theorem pointsAtUnit_separated_iff {whole fraction : List Char} {separator : Char}
    {unit : TimeUnit} (hseparator : isSeparator separator) (hfraction : ∀ c ∈ fraction, c.isDigit) :
    PointsAtUnit ((whole ++ separator :: fraction) ++ unit.suffix) ↔
      fraction = [] ∧ unit.suffix.length = 1 := by
  by_cases hnil : fraction = []
  · subst hnil
    rw [pointsAtUnit_append_iff]
    simp [hseparator]
  · have hlast : ∀ c ∈ (whole ++ separator :: fraction).getLast?, c.isDigit := by
      intro c hc
      rw [List.getLast?_append_of_ne_nil _ (List.cons_ne_nil _ _), List.getLast?_cons,
        List.getLast?_eq_some_getLast hnil] at hc
      obtain rfl : fraction.getLast hnil = c := by simpa using hc
      exact hfraction _ (List.getLast_mem hnil)
    have hpoints := not_pointsAtUnit_of_isDigit hlast unit
    exact iff_of_false hpoints fun h => hnil h.1

/-! ## Literals that the grammar admits -/

/-- What the reader makes of a text whose only possible faults can be seen. -/
inductive ReadsTo (text : List Char) : Except LiteralFault Duration → Prop where
  | point : PointsAtUnit text → ReadsTo text (.error .unknownUnit)
  | nanoseconds : DividesNanoseconds text → ReadsTo text (.error .fractionalNanoseconds)
  | count {n : Int} : ¬PointsAtUnit text → ¬DividesNanoseconds text → 0 ≤ n →
      ReadsTo text (orOutOfRange (Duration.ofCount? n))

/-- A literal of the grammar has no other faults. -/
theorem readsTo_of_wellFormed {text : String} (h : (Literal.duration text).WellFormed) :
    ReadsTo text.toList (read text.toList) := by
  obtain ⟨separated, amount, unit, hamount, htext⟩ := h
  rw [htext]
  have hdivides := dividesNanoseconds_append_iff hamount unit
  cases separated with
  | false =>
      obtain ⟨hne, hdigits⟩ := isNumeral_iff.1 hamount
      have hpoints : ¬PointsAtUnit (amount ++ unit.suffix) :=
        not_pointsAtUnit_of_isDigit (fun c hc => hdigits c (List.mem_of_mem_getLast? hc)) unit
      have hnonneg := mul_nonneg (zero_le_one.trans unit.one_le_count_length)
        (Int.natCast_nonneg (Decimal.value amount))
      rw [read_whole hamount]
      exact .count hpoints (by simp [hdivides]) hnonneg
  | true =>
      obtain ⟨whole, separator, fraction, hwhole, hseparator, hfraction, rfl⟩ := hamount
      have hpoints : PointsAtUnit ((whole ++ separator :: fraction) ++ unit.suffix) ↔ _ :=
        pointsAtUnit_separated_iff hseparator hfraction
      have hnonneg : 0 ≤ countOf (Binary64.rounded (Decimal.exact whole fraction)) unit :=
        countAlong_nonneg (Binary64.rounded_nonneg (Decimal.exact_nonneg whole fraction)) _
      rw [read_amount hwhole hseparator hfraction]
      split_ifs with hpoint hunit
      · exact .point (hpoints.2 hpoint)
      · exact .nanoseconds (hdivides.2 ⟨rfl, hunit⟩)
      · exact .count (hpoint ∘ hpoints.1) (fun h => hunit (hdivides.1 h).2) hnonneg

/-- The first letter of the unit of nanoseconds keeps it apart from the separator. -/
theorem DividesNanoseconds.not_pointsAtUnit {text : List Char} (h : DividesNanoseconds text) :
    ¬PointsAtUnit text := by
  rintro ⟨front, separator, letter, hseparator, -, rfl⟩
  obtain ⟨front', htext⟩ := h.2
  obtain ⟨-, hlast⟩ := List.append_inj' htext rfl
  obtain ⟨rfl, -⟩ := List.cons.inj hlast
  exact absurd hseparator (by decide)

/-- A number in front of the unit is never missing. -/
theorem ReadsTo.ne_invalidNumber {text : List Char} {fault : LiteralFault}
    (h : ReadsTo text (.error fault)) : fault ≠ .invalidNumber := by
  generalize hresult : (Except.error fault : Except LiteralFault Duration) = result at h
  cases h with
  | point | nanoseconds => cases hresult; nofun
  | @count n =>
      obtain ⟨-, rfl⟩ := orOutOfRange_eq_error_iff.1 hresult.symm
      nofun

/-- No literal of the grammar is worth less than nothing. -/
theorem ReadsTo.count_nonneg {text : List Char} {d : Duration} (h : ReadsTo text (.ok d)) :
    0 ≤ d.count := by
  generalize hresult : (Except.ok d : Except LiteralFault Duration) = result at h
  cases h with
  | point | nanoseconds => cases hresult
  | @count n _ _ hn =>
      have hcount := Duration.ofCount?_eq_some_iff.1 (orOutOfRange_eq_ok_iff.1 hresult.symm)
      rwa [hcount]

section Parse

variable {text : String}

theorem fault_of_parse (h : (Literal.duration text).WellFormed) {e : LiteralError}
    (hparse : parse text = .error e) : e.literal = text ∧ e.fault ≠ .invalidNumber := by
  obtain ⟨hliteral, hread⟩ := parse_eq_error_iff.1 hparse
  have hreads := readsTo_of_wellFormed h
  rw [hread] at hreads
  exact ⟨hliteral, hreads.ne_invalidNumber⟩

theorem count_nonneg_of_parse (h : (Literal.duration text).WellFormed) {d : Duration}
    (hparse : parse text = .ok d) : 0 ≤ d.count := by
  have hreads := readsTo_of_wellFormed h
  rw [parse_eq_ok_iff.1 hparse] at hreads
  exact hreads.count_nonneg

/-- What the parser makes of a literal of the grammar can be told from the text, up to the range. -/
theorem parse_of_wellFormed (h : (Literal.duration text).WellFormed) :
    (parse text = .error ⟨.unknownUnit, text⟩ ↔ PointsAtUnit text.toList) ∧
    (parse text = .error ⟨.fractionalNanoseconds, text⟩ ↔ DividesNanoseconds text.toList) ∧
    (¬PointsAtUnit text.toList → ¬DividesNanoseconds text.toList →
      parse text = .error ⟨.outOfRange, text⟩ ∨ ∃ d, parse text = .ok d ∧ 0 ≤ d.count) := by
  have hreads := readsTo_of_wellFormed h
  simp only [parse_eq_error_iff, parse_eq_ok_iff, true_and]
  generalize read text.toList = result at hreads
  cases hreads with
  | point hpoints =>
      have hdivides : ¬DividesNanoseconds text.toList := fun h => h.not_pointsAtUnit hpoints
      simp [hpoints, hdivides]
  | nanoseconds hdivides => simp [hdivides, hdivides.not_pointsAtUnit]
  | @count n hpoints hdivides hn =>
      cases hfound : Duration.ofCount? n with
      | none => simp [orOutOfRange, hpoints, hdivides]
      | some d =>
          have hd : 0 ≤ d.count := hn.trans_eq (Duration.ofCount?_eq_some_iff.1 hfound).symm
          simp [orOutOfRange, hpoints, hdivides, hd]

end Parse

end DurationLiteral

namespace IntegerLiteral

variable {text : String}

theorem parse_eq_ok_iff (h : Decimal.isNumeral text.toList) {n : Int64} :
    parse text = .ok n ↔ n.toInt = Decimal.value text.toList := by
  rw [parse_integer_digits h, ← Checked.ofInt?_eq_some_iff]
  cases Checked.ofInt? (Decimal.value text.toList : Int) <;> simp

/-- Digits denote no negative number, so they can only be too large. -/
theorem parse_eq_error_iff (h : Decimal.isNumeral text.toList) {e : LiteralError} :
    parse text = .error e ↔
      e = ⟨.invalidInteger, text⟩ ∧ Int64.maxValue.toInt < Decimal.value text.toList := by
  have hmin : Int64.minValue.toInt ≤ 0 := by decide
  have hlarge : Checked.ofInt? (Decimal.value text.toList : Int) = none ↔
      Int64.maxValue.toInt < Decimal.value text.toList := by
    rw [Checked.ofInt?_eq_none_iff, Checked.InRange]
    omega
  rw [parse_integer_digits h, ← hlarge]
  cases Checked.ofInt? (Decimal.value text.toList : Int) <;> simp [eq_comm]

end IntegerLiteral

/-! ## Literals of scanned expressions -/

/-- A scanned expression holds literals of the grammar only. -/
theorem wellFormed_of_scan {source : String} {tokens : List Token} (h : scan source = .ok tokens)
    {literal : Literal} (hliteral : .literal literal ∈ tokens) : literal.WellFormed := by
  obtain ⟨words, rfl, hspells⟩ := scan_eq_ok_iff.1 h
  have hword : Token.literal literal ∈ words := by simpa using hliteral
  exact hspells.isLexeme _ hword

/-- An integer literal of a scanned expression is the number that its digits denote, unless that is
too large. A duration literal has no fault in its number. Its unit is unknown exactly when it has
one letter directly behind the separator, and it has a fraction of nanoseconds exactly when it has a
separator and is in nanoseconds. Otherwise it is out of range or a duration that is not negative. -/
theorem scanned_literals_read {source : String} {tokens : List Token}
    (h : scan source = .ok tokens) :
    (∀ text, .literal (.integer text) ∈ tokens → Decimal.isNumeral text.toList ∧
      (∀ n, IntegerLiteral.parse text = .ok n ↔ n.toInt = Decimal.value text.toList) ∧
      ∀ e, IntegerLiteral.parse text = .error e ↔
        e = ⟨.invalidInteger, text⟩ ∧ Int64.maxValue.toInt < Decimal.value text.toList) ∧
    ∀ text, .literal (.duration text) ∈ tokens →
      (∀ e, DurationLiteral.parse text = .error e → e.literal = text ∧ e.fault ≠ .invalidNumber) ∧
      (DurationLiteral.parse text = .error ⟨.unknownUnit, text⟩ ↔
        DurationLiteral.PointsAtUnit text.toList) ∧
      (DurationLiteral.parse text = .error ⟨.fractionalNanoseconds, text⟩ ↔
        DurationLiteral.DividesNanoseconds text.toList) ∧
      (¬DurationLiteral.PointsAtUnit text.toList → ¬DurationLiteral.DividesNanoseconds text.toList →
        DurationLiteral.parse text = .error ⟨.outOfRange, text⟩ ∨
          ∃ d, DurationLiteral.parse text = .ok d ∧ 0 ≤ d.count) := by
  constructor
  · intro text hliteral
    have hnumeral : Decimal.isNumeral text.toList := wellFormed_of_scan h hliteral
    exact ⟨hnumeral, fun n => IntegerLiteral.parse_eq_ok_iff hnumeral,
      fun e => IntegerLiteral.parse_eq_error_iff hnumeral⟩
  · intro text hliteral
    have hwellFormed := wellFormed_of_scan h hliteral
    exact ⟨fun e => DurationLiteral.fault_of_parse hwellFormed,
      DurationLiteral.parse_of_wellFormed hwellFormed⟩

/-- Directly behind the separator, hours are unknown and milliseconds are not. -/
theorem scanned_literals_read_behind_points :
    let tokens : List Token := [.literal (.duration "1.h"), .literal (.duration "1.ms"),
      .literal (.duration "1,ns"), .literal (.integer "9223372036854775808"), .endOfInput]
    scan "1.h 1.ms 1,ns 9223372036854775808" = .ok tokens ∧
      DurationLiteral.parse "1.h" = .error ⟨.unknownUnit, "1.h"⟩ ∧
      ¬DurationLiteral.PointsAtUnit "1.ms".toList ∧
      DurationLiteral.parse "1,ns" = .error ⟨.fractionalNanoseconds, "1,ns"⟩ ∧
      IntegerLiteral.parse "9223372036854775808" =
        .error ⟨.invalidInteger, "9223372036854775808"⟩ := by
  intro tokens
  have hscan : scan "1.h 1.ms 1,ns 9223372036854775808" = .ok tokens := rfl
  obtain ⟨hinteger, hduration⟩ := scanned_literals_read hscan
  refine ⟨hscan, ?_, ?_, ?_, ?_⟩
  · have hpoints : DurationLiteral.PointsAtUnit "1.h".toList := ⟨['1'], '.', 'h', rfl, by simp, rfl⟩
    exact (hduration "1.h" (by simp [tokens])).2.1.2 hpoints
  · -- the parser finds the unit
    have hparse : DurationLiteral.parse "1.ms" = .ok ⟨1000000⟩ := by decide +kernel
    rw [← (hduration "1.ms" (by simp [tokens])).2.1, hparse]
    nofun
  · have hdivides : DurationLiteral.DividesNanoseconds "1,ns".toList :=
      ⟨⟨',', by simp, rfl⟩, ['1', ','], rfl⟩
    exact (hduration "1,ns" (by simp [tokens])).2.2.1.2 hdivides
  · have hlarge : Int64.maxValue.toInt < Decimal.value "9223372036854775808".toList := by decide
    exact ((hinteger _ (by simp [tokens])).2.2 _).2 ⟨rfl, hlarge⟩

end DurationCalculator
