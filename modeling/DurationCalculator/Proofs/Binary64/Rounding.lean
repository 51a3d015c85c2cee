import Mathlib.Algebra.Order.Field.Power
import Mathlib.Algebra.Order.Field.Rat
import Mathlib.Data.Rat.Floor
import Mathlib.Tactic.FieldSimp
import Mathlib.Tactic.Linarith
import Mathlib.Tactic.LinearCombination
import Mathlib.Tactic.Positivity
import Mathlib.Tactic.Ring
import DurationCalculator.Binary64.Basic

/-!
# Rounding to double precision

A number is rounded to a multiple of its last place, whatever the range of the exponents
(`rounded`); `nearest` is that number, or infinite from `2 ^ 1024` on. For numbers that are not
negative, rounding keeps the order (`rounded_mono`), and what it leaves alone is exactly what has a
significand of 53 bits (`Representable.rounded_eq`, `representable_rounded`). Within one exponent
this is the rounding to integers; between two exponents a power of two separates the numbers.

A representable number below one is at most `1 - 2 ^ -53`, so that its product with 60 or 1000 is
not rounded up to that factor (`rounded_mul_lt`).
-/

set_option autoImplicit false

namespace DurationCalculator.Binary64

/-! ## Integers -/

theorem roundHalfEven_bounds (q : Rat) :
    q.floor ≤ roundHalfEven q ∧ roundHalfEven q ≤ q.floor + 1 := by
  simp only [roundHalfEven]
  split_ifs <;> omega

theorem roundHalfEven_intCast (n : Int) : roundHalfEven n = n := by
  have hexcess : (n : Rat) - n < 1 / 2 := by norm_num
  rw [roundHalfEven, Rat.floor_intCast]
  exact if_pos hexcess

/-- Rounding to integers keeps the order. -/
theorem roundHalfEven_mono {p q : Rat} (h : p ≤ q) : roundHalfEven p ≤ roundHalfEven q := by
  have hfloor := Rat.floor_monotone h
  by_cases hsame : p.floor = q.floor
  · -- between the same two integers the larger number has the larger excess
    have hexcess : p - p.floor ≤ q - q.floor := by
      rw [hsame]
      linarith
    simp only [roundHalfEven, hsame] at hexcess ⊢
    split_ifs <;> grind
  · have hp := (roundHalfEven_bounds p).2
    have hq := (roundHalfEven_bounds q).1
    omega

/-! ## Exponents -/

/-- The exponent of a positive number is that of the power of two below it. -/
theorem binaryExponent_spec {q : Rat} (hq : 0 < q) :
    (2 : Rat) ^ binaryExponent q ≤ q ∧ q < (2 : Rat) ^ (binaryExponent q + 1) := by
  have hnum : 0 < q.num := Rat.num_pos.2 hq
  have hden : (0 : Rat) < q.den := by exact_mod_cast q.den_pos
  have hvalue : q = (q.num.natAbs : Rat) / q.den := by
    rw [Nat.cast_natAbs, abs_of_pos hnum, Rat.num_div_den]
  -- numerator and denominator lie between powers of two
  have hnumlow : (2 : Rat) ^ (q.num.natAbs.log2 : Int) ≤ q.num.natAbs := by
    exact_mod_cast Nat.log2_self_le (n := q.num.natAbs) (by omega)
  have hnumhigh : (q.num.natAbs : Rat) < 2 ^ (q.num.natAbs.log2 + 1 : Int) := by
    exact_mod_cast Nat.lt_log2_self (n := q.num.natAbs)
  have hdenlow : (2 : Rat) ^ (q.den.log2 : Int) ≤ q.den := by
    exact_mod_cast Nat.log2_self_le q.den_nz
  have hdenhigh : (q.den : Rat) < 2 ^ (q.den.log2 + 1 : Int) := by
    exact_mod_cast Nat.lt_log2_self (n := q.den)
  simp only [binaryExponent]
  generalize (q.num.natAbs.log2 : Int) = a at *
  generalize (q.den.log2 : Int) = b at *
  have hbelow : (2 : Rat) ^ (a - b - 1) < q := by
    rw [hvalue, lt_div_iff₀ hden]
    calc (2 : Rat) ^ (a - b - 1) * q.den
        < 2 ^ (a - b - 1) * 2 ^ (b + 1) := mul_lt_mul_of_pos_left hdenhigh (zpow_pos two_pos _)
      _ = 2 ^ a := by rw [← zpow_add₀ two_ne_zero, sub_sub, sub_add_cancel]
      _ ≤ q.num.natAbs := hnumlow
  have habove : q < (2 : Rat) ^ (a - b + 1) := by
    rw [hvalue, div_lt_iff₀ hden]
    calc (q.num.natAbs : Rat) < 2 ^ (a + 1) := hnumhigh
      _ = 2 ^ (a - b + 1) * 2 ^ b := by
          rw [← zpow_add₀ two_ne_zero, add_right_comm, sub_add_cancel]
      _ ≤ 2 ^ (a - b + 1) * q.den := mul_le_mul_of_nonneg_left hdenlow (zpow_pos two_pos _).le
  split_ifs with h
  · exact ⟨h, habove⟩
  · rw [not_le] at h
    rw [sub_add_cancel]
    exact ⟨hbelow.le, h⟩

theorem binaryExponent_mono {p q : Rat} (hp : 0 < p) (h : p ≤ q) :
    binaryExponent p ≤ binaryExponent q := by
  have hpow : (2 : Rat) ^ binaryExponent p < 2 ^ (binaryExponent q + 1) :=
    calc (2 : Rat) ^ binaryExponent p ≤ p := (binaryExponent_spec hp).1
      _ ≤ q := h
      _ < 2 ^ (binaryExponent q + 1) := (binaryExponent_spec (hp.trans_le h)).2
  have hlt := (zpow_lt_zpow_iff_right₀ one_lt_two).1 hpow
  omega

/-! ## Rounding to a place -/

/-- A multiple of a power of two is one of each smaller power. -/
theorem exists_multiple {place e : Int} (h : place ≤ e) (m : Int) :
    ∃ k : Int, m * (2 : Rat) ^ e = k * (2 : Rat) ^ place := by
  refine ⟨m * 2 ^ (e - place).toNat, ?_⟩
  have hexponent : e = ((e - place).toNat : Int) + place := by omega
  rw [hexponent, zpow_add₀ two_ne_zero, ← mul_assoc, zpow_natCast, add_sub_cancel_right,
    Int.toNat_natCast]
  push_cast
  rfl

/-- The multiple of `2 ^ place` that is nearest to `q`. -/
def roundTo (place : Int) (q : Rat) : Rat :=
  roundHalfEven (q / (2 : Rat) ^ place) * (2 : Rat) ^ place

theorem roundTo_mono (place : Int) {p q : Rat} (h : p ≤ q) : roundTo place p ≤ roundTo place q := by
  have hplace : (0 : Rat) < 2 ^ place := zpow_pos two_pos place
  have hinteger := roundHalfEven_mono (div_le_div_of_nonneg_right h hplace.le)
  exact mul_le_mul_of_nonneg_right (by exact_mod_cast hinteger) hplace.le

theorem roundTo_multiple {place e : Int} (h : place ≤ e) (m : Int) :
    roundTo place (m * (2 : Rat) ^ e) = m * (2 : Rat) ^ e := by
  obtain ⟨k, hk⟩ := exists_multiple h m
  rw [hk, roundTo, mul_div_cancel_right₀ _ (zpow_ne_zero place two_ne_zero), roundHalfEven_intCast]

/-! ## Rounding to double precision -/

/-- The multiple of its last place that is nearest to `q`. -/
def rounded (q : Rat) : Rat := roundTo (lastPlace (magnitude q)) q

theorem magnitude_of_nonneg {q : Rat} (h : 0 ≤ q) : magnitude q = q := if_neg (not_lt.2 h)

theorem rounded_of_nonneg {q : Rat} (h : 0 ≤ q) : rounded q = roundTo (lastPlace q) q := by
  rw [rounded, magnitude_of_nonneg h]

theorem lastPlace_bounds (q : Rat) :
    -1074 ≤ lastPlace q ∧ binaryExponent q - 52 ≤ lastPlace q := by
  unfold lastPlace
  omega

theorem le_rounded {q : Rat} (hq : 0 ≤ q) {m e : Int} (he : lastPlace q ≤ e)
    (h : m * (2 : Rat) ^ e ≤ q) : m * (2 : Rat) ^ e ≤ rounded q := by
  have hround := roundTo_mono (lastPlace q) h
  rwa [roundTo_multiple he, ← rounded_of_nonneg hq] at hround

theorem rounded_le {q : Rat} (hq : 0 ≤ q) {m e : Int} (he : lastPlace q ≤ e)
    (h : q ≤ m * (2 : Rat) ^ e) : rounded q ≤ m * (2 : Rat) ^ e := by
  have hround := roundTo_mono (lastPlace q) h
  rwa [roundTo_multiple he, ← rounded_of_nonneg hq] at hround

theorem rounded_of_multiple {m e : Int} (h : 0 ≤ m * (2 : Rat) ^ e)
    (he : lastPlace (m * (2 : Rat) ^ e) ≤ e) : rounded (m * (2 : Rat) ^ e) = m * (2 : Rat) ^ e := by
  rw [rounded_of_nonneg h, roundTo_multiple he]

@[simp] theorem rounded_zero : rounded 0 = 0 := by
  rw [rounded_of_nonneg le_rfl, roundTo, zero_div]
  exact mul_eq_zero_of_left (by exact_mod_cast roundHalfEven_intCast 0) _

theorem rounded_nonneg {q : Rat} (hq : 0 ≤ q) : 0 ≤ rounded q := by
  have hle := le_rounded hq le_rfl (by simpa using hq : (0 : Int) * (2 : Rat) ^ lastPlace q ≤ q)
  simpa using hle

/-- Rounding keeps the order of numbers that are not negative. -/
theorem rounded_mono {p q : Rat} (hp : 0 ≤ p) (h : p ≤ q) : rounded p ≤ rounded q := by
  have hq := hp.trans h
  rcases hp.eq_or_lt with rfl | hpos
  · rw [rounded_zero]
    exact rounded_nonneg hq
  have hexponent := binaryExponent_mono hpos h
  have hbounds := lastPlace_bounds p
  by_cases hsame : lastPlace p = lastPlace q
  · rw [rounded_of_nonneg hp, rounded_of_nonneg hq, hsame]
    exact roundTo_mono _ h
  · -- the power of two below the larger number separates them
    have hnormal : lastPlace q = binaryExponent q - 52 ∧ binaryExponent p + 1 ≤ binaryExponent q := by
      unfold lastPlace at hsame hbounds ⊢
      omega
    obtain ⟨hplace, hlt⟩ := hnormal
    have hbelow : p ≤ (1 : Int) * (2 : Rat) ^ binaryExponent q := by
      rw [Int.cast_one, one_mul]
      calc p ≤ 2 ^ (binaryExponent p + 1) := (binaryExponent_spec hpos).2.le
        _ ≤ 2 ^ binaryExponent q := zpow_le_zpow_right₀ one_le_two hlt
    have habove : (1 : Int) * (2 : Rat) ^ binaryExponent q ≤ q := by
      rw [Int.cast_one, one_mul]
      exact (binaryExponent_spec (hpos.trans_le h)).1
    calc rounded p ≤ (1 : Int) * (2 : Rat) ^ binaryExponent q :=
          rounded_le hp (by unfold lastPlace at *; omega) hbelow
      _ ≤ rounded q := le_rounded hq (by omega) habove

theorem nearest_of_lt {q : Rat} (hq : 0 ≤ q) (h : rounded q < (2 : Rat) ^ (1024 : Int)) :
    nearest q = finite (rounded q) := by
  rw [← magnitude_of_nonneg (rounded_nonneg hq)] at h
  exact if_pos h

theorem nearest_of_le {q : Rat} (hq : 0 ≤ q) (h : (2 : Rat) ^ (1024 : Int) ≤ rounded q) :
    nearest q = infinite false := by
  rw [← magnitude_of_nonneg (rounded_nonneg hq), ← not_lt] at h
  have hinfinite : nearest q = infinite (q < 0) := if_neg h
  rw [hinfinite, decide_eq_false (not_lt.2 hq)]

/-! ## Representable numbers -/

/-- A number with a significand of 53 bits, whose last place is not below that of the subnormal
numbers. It is a double if it is small enough. -/
def Representable (q : Rat) : Prop :=
  ∃ significand exponent : Int, |significand| < 2 ^ 53 ∧ -1074 ≤ exponent ∧
    q = significand * (2 : Rat) ^ exponent

theorem Representable.neg {q : Rat} (h : Representable q) : Representable (-q) := by
  obtain ⟨m, e, hm, he, rfl⟩ := h
  refine ⟨-m, e, by rwa [abs_neg], he, ?_⟩
  rw [Int.cast_neg, neg_mul]

/-- A representable number is rounded to itself. -/
theorem Representable.rounded_eq {q : Rat} (h : Representable q) (hq : 0 ≤ q) : rounded q = q := by
  obtain ⟨m, e, hm, he, rfl⟩ := h
  rcases hq.eq_or_lt with hzero | hpos
  · rw [← hzero, rounded_zero]
  have hpow : (2 : Rat) ^ binaryExponent (m * 2 ^ e) < 2 ^ (53 + e) :=
    calc (2 : Rat) ^ binaryExponent (m * 2 ^ e) ≤ m * 2 ^ e := (binaryExponent_spec hpos).1
      _ < 2 ^ (53 : Int) * 2 ^ e := by
          refine mul_lt_mul_of_pos_right ?_ (zpow_pos two_pos e)
          exact_mod_cast lt_of_abs_lt hm
      _ = 2 ^ (53 + e) := (zpow_add₀ two_ne_zero 53 e).symm
  have hlt := (zpow_lt_zpow_iff_right₀ one_lt_two).1 hpow
  refine rounded_of_multiple hq ?_
  unfold lastPlace
  omega

/-- A rounded number is representable. -/
theorem representable_rounded {q : Rat} (hq : 0 ≤ q) : Representable (rounded q) := by
  rcases hq.eq_or_lt with rfl | hpos
  · rw [rounded_zero]
    exact ⟨0, 0, by norm_num, by norm_num, by simp⟩
  have hplace : (0 : Rat) < 2 ^ lastPlace q := zpow_pos two_pos (lastPlace q)
  have hle : rounded q ≤ (2 ^ 53 : Int) * (2 : Rat) ^ lastPlace q := by
    refine rounded_le hq le_rfl ?_
    have hbounds := lastPlace_bounds q
    push_cast
    calc q ≤ 2 ^ (binaryExponent q + 1) := (binaryExponent_spec hpos).2.le
      _ ≤ 2 ^ (53 + lastPlace q) := zpow_le_zpow_right₀ one_le_two (by omega)
      _ = 2 ^ 53 * 2 ^ lastPlace q := zpow_add₀ two_ne_zero 53 _
  have hnonneg := rounded_nonneg hq
  rw [rounded_of_nonneg hq, roundTo] at hle hnonneg ⊢
  generalize roundHalfEven (q / (2 : Rat) ^ lastPlace q) = n at *
  have hlarge : n ≤ 2 ^ 53 := by exact_mod_cast le_of_mul_le_mul_right hle hplace
  have hn : 0 ≤ n := by exact_mod_cast nonneg_of_mul_nonneg_left hnonneg hplace
  -- a significand that is rounded up to the next power of two has one bit less
  rcases hlarge.eq_or_lt with rfl | hlt
  · refine ⟨2 ^ 52, lastPlace q + 1, by norm_num, ?_, ?_⟩
    · have hbounds := lastPlace_bounds q
      omega
    · rw [zpow_add₀ two_ne_zero]
      push_cast
      ring
  · exact ⟨n, lastPlace q, by rwa [abs_of_nonneg hn], (lastPlace_bounds q).1, rfl⟩

theorem representable_natCast {n : Nat} (h : n ≤ 2 ^ 53) : Representable n := by
  rcases h.eq_or_lt with rfl | hlt
  · exact ⟨2 ^ 52, 1, by norm_num, by norm_num, by norm_num⟩
  · refine ⟨n, 0, ?_, by norm_num, by simp⟩
    rw [abs_of_nonneg (Int.natCast_nonneg n)]
    exact_mod_cast hlt

/-- A representable number below one stays away from one by the last place of the numbers below
one. -/
theorem Representable.le_of_lt_one {q : Rat} (h : Representable q) (hq : q < 1) :
    q ≤ 1 - 2 ^ (-53 : Int) := by
  obtain ⟨m, e, hm, -, rfl⟩ := h
  have hone : ((2 ^ 53 - 1 : Int) : Rat) * 2 ^ (-53 : Int) = 1 - 2 ^ (-53 : Int) := by norm_num
  rw [← hone]
  have hplace : (0 : Rat) < 2 ^ (-53 : Int) := zpow_pos two_pos (-53)
  by_cases he : -53 ≤ e
  · obtain ⟨k, hk⟩ := exists_multiple he m
    have hlt : (k : Rat) * 2 ^ (-53 : Int) < (2 ^ 53 : Int) * 2 ^ (-53 : Int) := by
      rw [← hk]
      exact hq.trans_eq (by norm_num)
    have hinteger : k < 2 ^ 53 := by exact_mod_cast lt_of_mul_lt_mul_right hlt hplace.le
    rw [hk]
    refine mul_le_mul_of_nonneg_right ?_ hplace.le
    exact_mod_cast Int.le_sub_one_of_lt hinteger
  · have hinteger : m ≤ 2 ^ 53 - 1 := Int.le_sub_one_of_lt (lt_of_abs_lt hm)
    calc (m : Rat) * 2 ^ e ≤ (2 ^ 53 - 1 : Int) * 2 ^ e :=
          mul_le_mul_of_nonneg_right (by exact_mod_cast hinteger) (zpow_pos two_pos e).le
      _ ≤ (2 ^ 53 - 1 : Int) * 2 ^ (-53 : Int) :=
          mul_le_mul_of_nonneg_left (zpow_le_zpow_right₀ one_le_two (by omega)) (by norm_num)

/-- Below the point the significand is divided; the remainder is what stands behind the point. -/
theorem eq_ediv_add_emod {m e : Int} (he : e < 0) :
    (m : Rat) * 2 ^ e = (m / 2 ^ (-e).toNat : Int) + (m % 2 ^ (-e).toNat : Int) * (2 : Rat) ^ e ∧
      ((m : Rat) * 2 ^ e).floor = m / 2 ^ (-e).toNat := by
  have hplace : (0 : Rat) < 2 ^ e := zpow_pos two_pos e
  have hdivisor : (2 : Rat) ^ (-e).toNat * 2 ^ e = 1 := by
    rw [← zpow_natCast, ← zpow_add₀ two_ne_zero, Int.toNat_of_nonneg (by omega), neg_add_cancel,
      zpow_zero]
  have hpos : (0 : Int) < 2 ^ (-e).toNat := by positivity
  have hdivision := Int.mul_ediv_add_emod m (2 ^ (-e).toNat)
  have hremainder := Int.emod_nonneg m hpos.ne'
  have hless := Int.emod_lt_of_pos m hpos
  generalize m / 2 ^ (-e).toNat = n at *
  generalize m % 2 ^ (-e).toNat = r at *
  have hvalue : (m : Rat) * 2 ^ e = n + r * 2 ^ e := by
    rw [← hdivision]
    push_cast
    linear_combination (n : Rat) * hdivisor
  have hnonneg : 0 ≤ (r : Rat) * 2 ^ e := mul_nonneg (by exact_mod_cast hremainder) hplace.le
  have hlt : (r : Rat) * 2 ^ e < 1 := by
    rw [← hdivisor]
    exact mul_lt_mul_of_pos_right (by exact_mod_cast hless) hplace
  have hfloor : ⌊(m : Rat) * 2 ^ e⌋ = n := Int.floor_eq_iff.2 ⟨by linarith, by linarith⟩
  exact ⟨hvalue, hfloor⟩

/-- What is left of a representable number without its integral part is representable. -/
theorem Representable.sub_floor {q : Rat} (h : Representable q) (hq : 0 ≤ q) :
    Representable (q - q.floor) := by
  obtain ⟨m, e, hm, he, rfl⟩ := h
  by_cases hsign : 0 ≤ e
  · obtain ⟨k, hk⟩ := exists_multiple hsign m
    rw [hk, zpow_zero, mul_one, Rat.floor_intCast, sub_self]
    exact representable_natCast (Nat.zero_le _)
  · obtain ⟨hvalue, hfloor⟩ := @eq_ediv_add_emod m e (by omega)
    have hpos : (0 : Int) < 2 ^ (-e).toNat := by positivity
    have hm0 : 0 ≤ m := by exact_mod_cast nonneg_of_mul_nonneg_left hq (zpow_pos two_pos e)
    have hremainder := Int.emod_nonneg m hpos.ne'
    have hle : m % 2 ^ (-e).toNat ≤ m := by
      have hdivision := Int.mul_ediv_add_emod m (2 ^ (-e).toNat)
      have hquotient := mul_nonneg hpos.le (Int.ediv_nonneg hm0 hpos.le)
      linarith
    refine ⟨m % 2 ^ (-e).toNat, e, ?_, he, ?_⟩
    · rw [abs_of_nonneg hremainder]
      exact hle.trans_lt (lt_of_abs_lt hm)
    · rw [hfloor]
      linarith

/-- A fraction stays so far below one that its product with a ratio is not rounded up to the
ratio. -/
theorem rounded_mul_lt {q : Rat} (h : Representable q) (h0 : 0 ≤ q) (h1 : q < 1) {ratio : Nat}
    (hratio : ratio = 60 ∨ ratio = 1000) : rounded (q * ratio) < ratio := by
  have hle : q * ratio ≤ (1 - 2 ^ (-53 : Int)) * ratio :=
    mul_le_mul_of_nonneg_right (h.le_of_lt_one h1) (Nat.cast_nonneg _)
  refine (rounded_mono (by positivity) hle).trans_lt ?_
  rcases hratio with rfl | rfl <;> decide +kernel

end DurationCalculator.Binary64
