import DurationCalculator.Proofs.Literal.Cascade
import DurationCalculator.Proofs.Token.Separators

/-!
# Literals with a separator

Behind a digit a unit is cut off where it starts (`splitUnit?_append`), and digits with a point are
read as the number that they denote (`parse?_decimal`). So where the unit is cut off such a literal
is worth what its number, rounded to double precision, hands down through the units
(`read_of_splitUnit?`), in particular where a digit stands behind the separator (`read_separated`).
-/

set_option autoImplicit false

namespace DurationCalculator

namespace Numeral

/-- A text that starts with digits has no sign. It is a decimal number if all that follows them is a
fraction. -/
theorem parse?_append {whole rest fraction : List Char} (hwhole : Decimal.isNumeral whole)
    (hrest : ∀ c ∈ rest.head?, ¬c.isDigit) (hfraction : splitFraction rest = (fraction, [])) :
    parse? (whole ++ rest) =
      some (.decimal false (Decimal.value (whole ++ fraction)) (-(fraction.length : Int))) := by
  obtain ⟨hne, hdigits⟩ := isNumeral_iff.1 hwhole
  have hsign : Decimal.splitSign (whole ++ rest) = (false, whole ++ rest) := by
    obtain ⟨c, digits, rfl⟩ := List.exists_cons_of_ne_nil hne
    exact Decimal.splitSign_of_isDigit (hdigits c List.mem_cons_self) _
  obtain ⟨htake, hdrop⟩ := List.span_append hdigits hrest
  have hread : readDecimal? false (whole ++ rest) =
      some (.decimal false (Decimal.value (whole ++ fraction)) (-(fraction.length : Int))) := by
    rw [readDecimal?]
    dsimp only
    rw [htake, hdrop, hfraction]
    simp [hne, exponent?]
  rw [parse?, hsign]
  dsimp only
  rw [hread]
  rfl

/-- Digits alone are a numeral. -/
theorem parse?_digits {whole : List Char} (hwhole : Decimal.isNumeral whole) :
    parse? whole = some (.decimal false (Decimal.value whole) 0) := by
  have hend : ∀ c ∈ ([] : List Char).head?, ¬c.isDigit := nofun
  have hnone : splitFraction [] = ([], []) := rfl
  have hparse := parse?_append hwhole hend hnone
  rwa [List.append_nil] at hparse

/-- Digits with a point among them are a numeral. -/
theorem parse?_decimal {whole fraction : List Char} (hwhole : Decimal.isNumeral whole)
    (hfraction : ∀ c ∈ fraction, c.isDigit) :
    parse? (whole ++ '.' :: fraction) =
      some (.decimal false (Decimal.value (whole ++ fraction)) (-(fraction.length : Int))) := by
  have hpoint : ∀ c ∈ ('.' :: fraction).head?, ¬c.isDigit := by
    intro c hc
    obtain rfl : '.' = c := by simpa using hc
    decide
  have hend : ∀ c ∈ ([] : List Char).head?, ¬c.isDigit := nofun
  obtain ⟨htake, hdrop⟩ := List.span_append hfraction hend
  rw [List.append_nil] at htake hdrop
  refine parse?_append hwhole hpoint ?_
  rw [splitFraction, htake, hdrop]

/-- A numeral of digits and a point names the double nearest to its number. -/
theorem toBinary64_decimal (whole fraction : List Char) :
    (decimal false (Decimal.value (whole ++ fraction)) (-(fraction.length : Int))).toBinary64 =
      Binary64.nearest (Decimal.exact whole fraction) := by
  rw [toBinary64, exactValue, Decimal.exact, zpow_neg, zpow_natCast, div_eq_mul_inv]
  rfl

end Numeral

namespace DurationLiteral

/-- Behind a digit the unit is cut off as a whole. -/
theorem splitUnit?_append (front : List Char) {d : Char} (hd : d.isDigit) (unit : TimeUnit) :
    splitUnit? ((front ++ [d]) ++ unit.suffix) = some (front ++ [d], unit.suffix) := by
  have hreverse : ((front ++ [d]) ++ unit.suffix).reverse =
      unit.suffix.reverse ++ d :: front.reverse := by simp
  rw [splitUnit?, hreverse]
  cases unit <;> simp +decide [TimeUnit.suffix, hd]

/-- The last digit of a fraction keeps the unit apart from the point. -/
theorem splitUnit?_behind_fraction (whole : List Char) {fraction : List Char}
    (h : Decimal.isNumeral fraction) (unit : TimeUnit) :
    splitUnit? ((whole ++ '.' :: fraction) ++ unit.suffix) =
      some (whole ++ '.' :: fraction, unit.suffix) := by
  obtain ⟨hne, hdigits⟩ := isNumeral_iff.1 h
  have hsplit := splitUnit?_append (whole ++ '.' :: fraction.dropLast)
    (hdigits _ (List.getLast_mem hne)) unit
  rwa [List.append_assoc whole, List.cons_append, List.dropLast_append_getLast hne] at hsplit

/-- In the numeral the separator is a point. -/
theorem map_separator {whole fraction : List Char} {separator : Char}
    (hwhole : ∀ c ∈ whole, c.isDigit) (hseparator : isSeparator separator)
    (hfraction : ∀ c ∈ fraction, c.isDigit) (unit : TimeUnit) :
    ((whole ++ separator :: fraction) ++ unit.suffix).map (fun c => if c = ',' then '.' else c) =
      (whole ++ '.' :: fraction) ++ unit.suffix := by
  have hdigits {cs : List Char} (hcs : ∀ c ∈ cs, c.isDigit) : cs.map withPoint = cs :=
    map_withPoint_of_not_isSeparator fun c hc => isSeparator_of_isDigit (hcs c hc)
  have hsuffix : unit.suffix.map withPoint = unit.suffix :=
    map_withPoint_of_not_isSeparator fun c hc => (letters_suffix unit c hc).1
  change ((whole ++ separator :: fraction) ++ unit.suffix).map withPoint = _
  rw [List.map_append, List.map_append, List.map_cons, hdigits hwhole, hdigits hfraction, hsuffix,
    withPoint_eq_point hseparator]

/-- A literal with a separator that is cut in front of its unit is worth what its number hands down
through the units; nanoseconds hand nothing down. -/
theorem read_of_splitUnit? {whole fraction : List Char} {separator : Char} {unit : TimeUnit}
    (hwhole : Decimal.isNumeral whole) (hseparator : isSeparator separator)
    (hfraction : ∀ c ∈ fraction, c.isDigit)
    (hsplit : splitUnit? ((whole ++ '.' :: fraction) ++ unit.suffix) =
      some (whole ++ '.' :: fraction, unit.suffix)) :
    read ((whole ++ separator :: fraction) ++ unit.suffix) =
      if unit = .nanosecond then .error .fractionalNanoseconds
      else orOutOfRange (Duration.ofCount?
        (countOf (Binary64.rounded (Decimal.exact whole fraction)) unit)) := by
  have hany : ((whole ++ separator :: fraction) ++ unit.suffix).any isSeparator := by
    simp [hseparator]
  have hnonneg := Decimal.exact_nonneg whole fraction
  rw [read, hany, if_pos rfl, readFractional,
    map_separator (isNumeral_iff.1 hwhole).2 hseparator hfraction, hsplit]
  dsimp only
  rw [Numeral.parse?_decimal hwhole hfraction]
  dsimp only
  rw [TimeUnit.ofSuffix?_suffix, Numeral.toBinary64_decimal, ← cascade?_nearest hnonneg]
  cases unit with
  | nanosecond => rfl
  | _ =>
      dsimp only
      split <;> simp_all [orOutOfRange]

/-- A literal with a separator and a digit behind it is worth what its number hands down through the
units. -/
theorem read_separated {whole fraction : List Char} {separator : Char} {unit : TimeUnit}
    (hwhole : Decimal.isNumeral whole) (hseparator : isSeparator separator)
    (hfraction : Decimal.isNumeral fraction) (hunit : unit ≠ .nanosecond) :
    read ((whole ++ separator :: fraction) ++ unit.suffix) =
      orOutOfRange (Duration.ofCount?
        (countOf (Binary64.rounded (Decimal.exact whole fraction)) unit)) := by
  have hsplit := splitUnit?_behind_fraction whole hfraction unit
  rw [read_of_splitUnit? hwhole hseparator (isNumeral_iff.1 hfraction).2 hsplit, if_neg hunit]

end DurationLiteral

end DurationCalculator
