import DurationCalculator.Proofs.Literal.Fraction

/-!
# The order of literals

Literals with and without a separator are read in two ways, one exact and one rounded. Up to
`2 ^ 53` a whole number is a double, so that both give the same duration; beyond it both refuse it,
since that many of a unit from milliseconds on are more than 64 bits hold (`ofCount?_whole`). So
every literal is worth what its number, rounded, hands down through the units (`Writes.read_eq`).
Rounding and handing down keep the order, and with it the literals do
(`longer_number_no_shorter`).
-/

set_option autoImplicit false

namespace DurationCalculator.DurationLiteral

open Binary64

/-- The number that digits write, alone or with a separator and more digits behind them. -/
inductive Writes : List Char → Rat → Prop where
  | whole {digits : List Char} : Decimal.isNumeral digits → Writes digits (Decimal.value digits)
  | separated {whole fraction : List Char} {separator : Char} : Decimal.isNumeral whole →
      isSeparator separator → Decimal.isNumeral fraction →
      Writes (whole ++ separator :: fraction) (Decimal.exact whole fraction)

theorem Writes.nonneg {amount : List Char} {q : Rat} (h : Writes amount q) : 0 ≤ q := by
  cases h with
  | whole _ => exact Nat.cast_nonneg _
  | separated _ _ _ => exact Decimal.exact_nonneg _ _

/-- A larger number hands down no less. -/
theorem countOf_rounded_mono {p q : Rat} (hp : 0 ≤ p) (h : p ≤ q) (unit : TimeUnit) :
    countOf (rounded p) unit ≤ countOf (rounded q) unit :=
  countAlong_mono unit.descends_smallerUnits (representable_rounded hp)
    (representable_rounded (hp.trans h)) (rounded_nonneg hp) (rounded_mono hp h)

theorem countOf_rounded_natCast {n : Nat} (h : n ≤ 2 ^ 53) (unit : TimeUnit) :
    countOf (rounded n) unit = n * unit.length.count := by
  rw [(representable_natCast h).rounded_eq (Nat.cast_nonneg n)]
  exact countAlong_natCast n unit unit.smallerUnits

/-- Counting a whole number of units exactly is as good as handing it down. -/
theorem ofCount?_whole {unit : TimeUnit} (hunit : unit ≠ .nanosecond) {n : Nat}
    (hmicro : unit = .microsecond → n ≤ 2 ^ 53) :
    Duration.ofCount? (unit.length.count * (n : Int)) =
      Duration.ofCount? (countOf (rounded n) unit) := by
  by_cases hn : n ≤ 2 ^ 53
  · rw [countOf_rounded_natCast hn, mul_comm]
  · -- both counts are at least that of the largest number that is exact
    have hlarge : Duration.ofCount? ((2 ^ 53 : Nat) * unit.length.count) = none := by
      cases unit with
      | microsecond => exact absurd (hmicro rfl) hn
      | nanosecond => exact absurd rfl hunit
      | _ => decide
    have hlimit : (2 ^ 53 : Nat) ≤ n := by omega
    have hlength := unit.one_le_count_length
    have hnonneg : 0 ≤ ((2 ^ 53 : Nat) : Int) * unit.length.count := by positivity
    have hexact : ((2 ^ 53 : Nat) : Int) * unit.length.count ≤ unit.length.count * (n : Int) := by
      rw [mul_comm]
      exact mul_le_mul_of_nonneg_left (by exact_mod_cast hlimit) (zero_le_one.trans hlength)
    have hrounded : ((2 ^ 53 : Nat) : Int) * unit.length.count ≤ countOf (rounded n) unit := by
      rw [← countOf_rounded_natCast le_rfl]
      exact countOf_rounded_mono (Nat.cast_nonneg _) (by exact_mod_cast hlimit) unit
    rw [Duration.ofCount?_eq_none_of_le hlarge hnonneg hexact,
      Duration.ofCount?_eq_none_of_le hlarge hnonneg hrounded]

/-- Every literal is worth what its number hands down. -/
theorem Writes.read_eq {amount : List Char} {q : Rat} (h : Writes amount q) {unit : TimeUnit}
    (hunit : unit ≠ .nanosecond) (hmicro : unit = .microsecond → q ≤ 2 ^ 53) :
    read (amount ++ unit.suffix) =
      orOutOfRange (Duration.ofCount? (countOf (rounded q) unit)) := by
  cases h with
  | whole hdigits =>
      rw [read_whole hdigits, ofCount?_whole hunit fun h => by exact_mod_cast hmicro h]
  | separated hwhole hseparator hfraction =>
      exact read_separated hwhole hseparator hfraction hunit

theorem Writes.parse_eq_ok_iff {amount : List Char} {q : Rat} (h : Writes amount q)
    {unit : TimeUnit} (hunit : unit ≠ .nanosecond) (hmicro : unit = .microsecond → q ≤ 2 ^ 53)
    {d : Duration} :
    parse (String.ofList (amount ++ unit.suffix)) = .ok d ↔
      Duration.ofCount? (countOf (rounded q) unit) = some d := by
  rw [DurationLiteral.parse_eq_ok_iff, String.toList_ofList, h.read_eq hunit hmicro,
    orOutOfRange_eq_ok_iff]

/-- The only fault of such a literal is that it is out of range. -/
theorem Writes.parse_eq_error_iff {amount : List Char} {q : Rat} (h : Writes amount q)
    {unit : TimeUnit} (hunit : unit ≠ .nanosecond) (hmicro : unit = .microsecond → q ≤ 2 ^ 53)
    {e : LiteralError} :
    parse (String.ofList (amount ++ unit.suffix)) = .error e ↔
      Duration.ofCount? (countOf (rounded q) unit) = none ∧
        e = ⟨.outOfRange, String.ofList (amount ++ unit.suffix)⟩ := by
  rw [DurationLiteral.parse_eq_error_iff, String.toList_ofList, h.read_eq hunit hmicro,
    orOutOfRange_eq_error_iff]
  obtain ⟨fault, literal⟩ := e
  rw [LiteralError.mk.injEq]
  exact ⟨fun ⟨hliteral, hnone, hfault⟩ => ⟨hnone, hfault, hliteral⟩,
    fun ⟨hnone, hfault, hliteral⟩ => ⟨hliteral, hnone, hfault⟩⟩

/-- Of two literals with one unit, the one with the larger number is no shorter. Where it has a
duration, the other one has a duration as well; and the only fault of such a literal is that it is
out of range. Two spellings of one number have the same duration. -/
theorem longer_number_no_shorter {unit : TimeUnit} (hunit : unit ≠ .nanosecond)
    {a b : List Char} {p q : Rat} (ha : Writes a p) (hb : Writes b q) (hle : p ≤ q)
    (hmicro : unit = .microsecond → q ≤ 2 ^ 53) :
    let first := String.ofList (a ++ unit.suffix)
    let second := String.ofList (b ++ unit.suffix)
    (∀ d, parse second = .ok d →
      ∃ d', parse first = .ok d' ∧ 0 ≤ d'.count ∧ d'.count ≤ d.count) ∧
    (∀ e, parse first = .error e →
      e = ⟨.outOfRange, first⟩ ∧ parse second = .error ⟨.outOfRange, second⟩) ∧
    (p = q → ∀ d, parse first = .ok d ↔ parse second = .ok d) := by
  intro first second
  have hfirstMicro : unit = .microsecond → p ≤ 2 ^ 53 := fun h => hle.trans (hmicro h)
  have hnonneg : 0 ≤ countOf (rounded p) unit := countAlong_nonneg (rounded_nonneg ha.nonneg) _
  have hcount := countOf_rounded_mono ha.nonneg hle unit
  refine ⟨?_, ?_, ?_⟩
  · intro d hd
    have hsecond := (hb.parse_eq_ok_iff hunit hmicro).1 hd
    cases hfirst : Duration.ofCount? (countOf (rounded p) unit) with
    | none =>
        have hlarge := Duration.ofCount?_eq_none_of_le hfirst hnonneg hcount
        rw [hsecond] at hlarge
        cases hlarge
    | some d' =>
        have hd' : d'.count = countOf (rounded p) unit := Duration.ofCount?_eq_some_iff.1 hfirst
        have hd : d.count = countOf (rounded q) unit := Duration.ofCount?_eq_some_iff.1 hsecond
        exact ⟨d', (ha.parse_eq_ok_iff hunit hfirstMicro).2 hfirst, by omega, by omega⟩
  · intro e he
    obtain ⟨hfirst, rfl⟩ := (ha.parse_eq_error_iff hunit hfirstMicro).1 he
    have hsecond := Duration.ofCount?_eq_none_of_le hfirst hnonneg hcount
    exact ⟨rfl, (hb.parse_eq_error_iff hunit hmicro).2 ⟨hsecond, rfl⟩⟩
  · rintro rfl d
    exact (ha.parse_eq_ok_iff hunit hmicro).trans (hb.parse_eq_ok_iff hunit hmicro).symm

/-- The last microseconds for which the order is certain. The fraction is rounded up to the next
whole number. -/
theorem longer_number_no_shorter_microseconds :
    TimeUnit.microsecond ≠ .nanosecond ∧
    Writes "9007199254740991,5".toList (18014398509481983 / 2) ∧
    Writes "9007199254740992".toList (2 ^ 53) ∧
    (18014398509481983 / 2 : Rat) ≤ 2 ^ 53 ∧
    parse "9007199254740992us" = .ok ⟨9007199254740992000⟩ ∧
    ∃ d, parse "9007199254740991,5us" = .ok d ∧ 0 ≤ d.count ∧ d.count ≤ 9007199254740992000 := by
  have hunit : TimeUnit.microsecond ≠ .nanosecond := by decide
  have hfirst : Writes "9007199254740991,5".toList (18014398509481983 / 2) := by
    have hwrites := @Writes.separated "9007199254740991".toList ['5'] ',' (by decide) rfl rfl
    have hvalue : Decimal.exact "9007199254740991".toList ['5'] = 18014398509481983 / 2 := by
      decide +kernel
    rw [hvalue] at hwrites
    exact hwrites
  have hsecond : Writes "9007199254740992".toList (2 ^ 53) := by
    have hwrites := @Writes.whole "9007199254740992".toList (by decide)
    have hvalue : Decimal.value "9007199254740992".toList = 2 ^ 53 := by decide
    rw [hvalue] at hwrites
    exact_mod_cast hwrites
  have hle : (18014398509481983 / 2 : Rat) ≤ 2 ^ 53 := by norm_num
  have hparse : parse "9007199254740992us" = .ok ⟨9007199254740992000⟩ := rfl
  refine ⟨hunit, hfirst, hsecond, hle, hparse, ?_⟩
  exact (longer_number_no_shorter hunit hfirst hsecond hle fun _ => le_rfl).1 _ hparse

end DurationCalculator.DurationLiteral
