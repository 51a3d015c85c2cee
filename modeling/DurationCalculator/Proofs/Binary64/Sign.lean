import DurationCalculator.Proofs.Binary64.Rounding

/-!
# Opposite doubles

Rounding to the nearest, with ties to even, treats a number and its opposite alike (`nearest_neg`).
So do the integral part, the difference and the product.
-/

set_option autoImplicit false

namespace DurationCalculator.Binary64

/-- The double of opposite sign. -/
def neg : Binary64 → Binary64
  | finite q => finite (-q)
  | infinite negative => infinite (!negative)
  | nan => nan

/-! ## Rounding -/

/-- Between two integers the opposite number lies between the opposite integers. -/
theorem floor_neg_of_ne {q : Rat} (h : (q.floor : Rat) ≠ q) : (-q).floor = -q.floor - 1 := by
  have hlow : (q.floor : Rat) < q := lt_of_le_of_ne (Rat.floor_le q) h
  have hhigh : q - 1 < q.floor := Rat.lt_floor
  have hfloor : ⌊-q⌋ = -q.floor - 1 := by
    rw [Int.floor_eq_iff]
    push_cast
    constructor <;> linarith
  exact hfloor

theorem roundHalfEven_neg (q : Rat) : roundHalfEven (-q) = -roundHalfEven q := by
  by_cases hinteger : (q.floor : Rat) = q
  · have hopposite : -q = ((-q.floor : Int) : Rat) := by
      rw [Int.cast_neg, hinteger]
    rw [hopposite, roundHalfEven_intCast, ← hinteger, roundHalfEven_intCast, hinteger]
  · -- the excess over the one integer is what is missing to the other, and one of them is even
    have hfloor := floor_neg_of_ne hinteger
    have hexcess : -q - ((-q).floor : Rat) = 1 - (q - q.floor) := by
      rw [hfloor]
      push_cast
      ring
    simp only [roundHalfEven, hexcess]
    rw [hfloor]
    generalize q - (q.floor : Rat) = excess at *
    split_ifs <;> first | omega | linarith

theorem roundTo_neg (place : Int) (q : Rat) : roundTo place (-q) = -roundTo place q := by
  rw [roundTo, neg_div, roundHalfEven_neg, Int.cast_neg, neg_mul]
  rfl

theorem magnitude_neg (q : Rat) : magnitude (-q) = magnitude q := by
  unfold magnitude
  split_ifs <;> linarith

theorem rounded_neg (q : Rat) : rounded (-q) = -rounded q := by
  rw [rounded, magnitude_neg, roundTo_neg]
  rfl

theorem nearest_eq (q : Rat) :
    nearest q = if magnitude (rounded q) < (2 : Rat) ^ (1024 : Int) then finite (rounded q)
      else infinite (q < 0) := rfl

/-- The double nearest to the opposite number is the opposite double. -/
theorem nearest_neg (q : Rat) : nearest (-q) = (nearest q).neg := by
  rw [nearest_eq, nearest_eq, rounded_neg, magnitude_neg]
  split_ifs with hsmall
  · rfl
  · -- zero is small, so one of the number and its opposite is negative
    have hzero : q ≠ 0 := by
      rintro rfl
      rw [rounded_zero, magnitude_of_nonneg le_rfl] at hsmall
      exact hsmall (zpow_pos two_pos _)
    have hsign : decide (-q < 0) = !decide (q < 0) := by
      rw [← decide_not, decide_eq_decide, neg_lt_zero, not_lt]
      exact ⟨le_of_lt, fun hle => lt_of_le_of_ne hle hzero.symm⟩
    rw [hsign]
    rfl

/-! ## Operations -/

theorem trunc_neg (x : Binary64) : x.neg.trunc = x.trunc.neg := by
  cases x with
  | finite q =>
      simp only [neg, trunc, Rat.neg_num, Rat.neg_den, Int.neg_tdiv]
      push_cast
      rfl
  | infinite negative => rfl
  | nan => rfl

theorem sub_neg (x y : Binary64) : x.neg.sub y.neg = (x.sub y).neg := by
  cases x with
  | finite p =>
      cases y with
      | finite q =>
          have hopposite : -p - -q = -(p - q) := by ring
          rw [neg, neg, sub, hopposite, nearest_neg]
          rfl
      | infinite negative => rfl
      | nan => rfl
  | infinite negative =>
      cases y with
      | finite q => rfl
      | infinite other => cases negative <;> cases other <;> rfl
      | nan => rfl
  | nan => cases y <;> rfl

theorem scale_neg (x : Binary64) (k : Nat) : x.neg.scale k = (x.scale k).neg := by
  cases x with
  | finite q =>
      rw [neg, scale, neg_mul, nearest_neg]
      rfl
  | infinite negative =>
      rw [neg, scale, scale]
      split_ifs <;> rfl
  | nan => rfl

end DurationCalculator.Binary64
