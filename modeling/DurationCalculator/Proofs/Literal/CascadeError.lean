import Mathlib.Algebra.Order.Group.Abs
import DurationCalculator.Proofs.Literal.Cascade

/-!
# The error of handing down

A number below `2 ^ e` is rounded by at most `2 ^ (e - 54)` (`abs_rounded_sub_le`). What a unit
hands down is below a thousand, so each unit adds at most `2 ^ -44` of the next one, and these
errors together stay below `2 ^ -44` of the unit that the number counts (`countAlong_error`).
Where a number is a whole number of nanoseconds, rounding it and handing it down can lose one of
them, and no more (`countOf_rounded_cases`).
-/

set_option autoImplicit false

namespace DurationCalculator

/-! ## One rounding -/

namespace Binary64

theorem abs_roundHalfEven_sub_le (q : Rat) : |(roundHalfEven q : Rat) - q| ≤ 1 / 2 := by
  have hlow : (q.floor : Rat) ≤ q := Rat.floor_le q
  have hhigh : q - 1 < q.floor := Rat.lt_floor
  rw [abs_le]
  simp only [roundHalfEven]
  split_ifs with hbelow habove heven
  · constructor <;> linarith
  · push_cast
    constructor <;> linarith
  · constructor <;> linarith
  · push_cast
    constructor <;> linarith

theorem abs_roundTo_sub_le (place : Int) (q : Rat) :
    |roundTo place q - q| ≤ (2 : Rat) ^ (place - 1) := by
  have hplace : (0 : Rat) < 2 ^ place := zpow_pos two_pos place
  have hscaled : roundTo place q - q =
      (roundHalfEven (q / 2 ^ place) - q / 2 ^ place) * (2 : Rat) ^ place := by
    rw [roundTo, sub_mul, div_mul_cancel₀ _ hplace.ne']
  calc |roundTo place q - q|
      = |(roundHalfEven (q / 2 ^ place) : Rat) - q / 2 ^ place| * (2 : Rat) ^ place := by
        rw [hscaled, abs_mul, abs_of_pos hplace]
    _ ≤ 1 / 2 * (2 : Rat) ^ place :=
        mul_le_mul_of_nonneg_right (abs_roundHalfEven_sub_le _) hplace.le
    _ = (2 : Rat) ^ (place - 1) := by
        rw [sub_eq_add_neg, zpow_add₀ two_ne_zero, mul_comm]
        norm_num

/-- A number below a power of two is rounded by at most half of a last place. -/
theorem abs_rounded_sub_le {q : Rat} (hq : 0 ≤ q) {e : Int} (he : -1021 ≤ e)
    (h : q < (2 : Rat) ^ e) : |rounded q - q| ≤ (2 : Rat) ^ (e - 54) := by
  rcases hq.eq_or_lt with rfl | hpos
  · rw [rounded_zero, sub_self, abs_zero]
    exact (zpow_pos two_pos _).le
  have hexponent : binaryExponent q < e :=
    (zpow_lt_zpow_iff_right₀ one_lt_two).1 ((binaryExponent_spec hpos).1.trans_lt h)
  have hplace : lastPlace q - 1 ≤ e - 54 := by
    unfold lastPlace
    omega
  rw [rounded_of_nonneg hq]
  exact (abs_roundTo_sub_le _ q).trans (zpow_le_zpow_right₀ one_le_two hplace)

end Binary64

namespace DurationLiteral

open Binary64

/-- The largest error in the number that a unit is handed, as a fraction of the unit. -/
def tolerance : Rat := 2 ^ (-44 : Int)

theorem tolerance_pos : 0 < tolerance := zpow_pos two_pos _

theorem abs_rounded_sub_le_tolerance {q : Rat} (hq : 0 ≤ q) (h : q < 1000) :
    |rounded q - q| ≤ tolerance := by
  have hten : q < (2 : Rat) ^ (10 : Int) := h.trans (by norm_num)
  have hplace : (-44 : Int) = 10 - 54 := by norm_num
  rw [tolerance, hplace]
  exact abs_rounded_sub_le hq (by norm_num) hten

/-! ## All units -/

theorem abs_handedDown_sub_le (v : Rat) {ratio : Nat} (hratio : ratio = 60 ∨ ratio = 1000) :
    |handedDown v ratio - (v - v.floor) * ratio| ≤ tolerance := by
  have hle : (ratio : Rat) ≤ 1000 := by
    rcases hratio with rfl | rfl <;> norm_num
  have hpos : (0 : Rat) < ratio := by
    rcases hratio with rfl | rfl <;> norm_num
  have hproduct : (v - v.floor) * ratio < 1000 :=
    calc (v - v.floor) * ratio < 1 * ratio :=
          mul_lt_mul_of_pos_right (sub_lt_comm.1 Rat.lt_floor) hpos
      _ ≤ 1000 := by rwa [one_mul]
  exact abs_rounded_sub_le_tolerance (mul_nonneg (sub_nonneg.2 (Rat.floor_le v)) hpos.le) hproduct

/-- The units take the number up to the tolerance, and less than one nanosecond below it. -/
theorem countAlong_error {unit : TimeUnit} {below : List TimeUnit} (h : unit.Descends below)
    (v : Rat) :
    (countAlong v (unit :: below) : Rat) ≤ (v + tolerance) * unit.length.count ∧
      (v - tolerance) * unit.length.count < countAlong v (unit :: below) + 1 := by
  have htolerance := tolerance_pos
  induction h generalizing v with
  | @last unit hlast =>
      have hlength : unit.length.count = 1 := by
        cases unit <;> first | rfl | cases hlast
      have hlow : (v.floor : Rat) ≤ v := Rat.floor_le v
      have hhigh : v - 1 < v.floor := Rat.lt_floor
      rw [countAlong_last hlast, hlength]
      push_cast
      constructor <;> linarith
  | @next unit next ratio below hnext _ ih =>
      have hratio := TimeUnit.ratio_of_smaller? hnext
      have htwo : (2 : Rat) ≤ ratio := by
        rcases hratio with rfl | rfl <;> norm_num
      have hlength : (0 : Rat) < next.length.count :=
        zero_lt_one.trans_le (by exact_mod_cast next.one_le_count_length)
      obtain ⟨hlow, hhigh⟩ := abs_le.1 (abs_handedDown_sub_le v hratio)
      obtain ⟨hupper, hlower⟩ := ih (handedDown v ratio)
      rw [countAlong_next hnext, TimeUnit.length_eq_of_smaller? hnext]
      push_cast
      generalize (next.length.count : Rat) = n at *
      generalize (countAlong (handedDown v ratio) (next :: below) : Rat) = taken at *
      -- the error of the rounding and that of the units below are two tolerances of the next unit
      have htwice : 2 * tolerance * n ≤ tolerance * (ratio * n) := by
        have hscaled := mul_le_mul_of_nonneg_left htwo (mul_pos htolerance hlength).le
        linarith
      constructor
      · have hrounded : (handedDown v ratio + tolerance) * n ≤
            ((v - v.floor) * ratio + 2 * tolerance) * n :=
          mul_le_mul_of_nonneg_right (by linarith) hlength.le
        linarith
      · have hrounded : ((v - v.floor) * ratio - 2 * tolerance) * n ≤
            (handedDown v ratio - tolerance) * n :=
          mul_le_mul_of_nonneg_right (by linarith) hlength.le
        linarith

/-- A whole number of nanoseconds, written in a unit of at most a second, loses at most one of them.
-/
theorem countOf_rounded_cases {unit : TimeUnit} (hunit : unit.length.count ≤ 1000000000) {q : Rat}
    (hq : 0 ≤ q) (hlt : q < 1000) {n : Int} (hn : q * unit.length.count = n) :
    countOf (rounded q) unit = n ∨ countOf (rounded q) unit = n - 1 := by
  obtain ⟨hlow, hhigh⟩ := abs_le.1 (abs_rounded_sub_le_tolerance hq hlt)
  obtain ⟨hupper, hlower⟩ := countAlong_error unit.descends_smallerUnits (rounded q)
  have hpos : (0 : Rat) < unit.length.count :=
    zero_lt_one.trans_le (by exact_mod_cast unit.one_le_count_length)
  have hsmall : 2 * tolerance * unit.length.count < 1 := by
    have hle : (unit.length.count : Rat) ≤ 1000000000 := by exact_mod_cast hunit
    calc 2 * tolerance * unit.length.count ≤ 2 * tolerance * 1000000000 :=
          mul_le_mul_of_nonneg_left hle (by linarith [tolerance_pos])
      _ < 1 := by norm_num [tolerance]
  have habove : (rounded q + tolerance) * unit.length.count ≤
      (q + 2 * tolerance) * unit.length.count :=
    mul_le_mul_of_nonneg_right (by linarith) hpos.le
  have hbelow : (q - 2 * tolerance) * unit.length.count ≤
      (rounded q - tolerance) * unit.length.count :=
    mul_le_mul_of_nonneg_right (by linarith) hpos.le
  have hmost : (countOf (rounded q) unit : Rat) < n + 1 := by
    rw [countOf]
    linarith
  have hleast : (n : Rat) - 2 < countOf (rounded q) unit := by
    rw [countOf]
    linarith
  have hmost' : countOf (rounded q) unit < n + 1 := by exact_mod_cast hmost
  have hleast' : n - 2 < countOf (rounded q) unit := by exact_mod_cast hleast
  omega

end DurationLiteral

end DurationCalculator
