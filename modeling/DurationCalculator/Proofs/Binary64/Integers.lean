import DurationCalculator.Proofs.Binary64.Sign

/-!
# Doubles that are integers

Whether a double is a 64-bit integer is decided by operations on doubles: it is compared with the
ends of the range, and what stands behind its point is compared with zero. The least 64-bit
integer is a double, and the largest is rounded up to `2 ^ 63` (`ofInt64_minValue`,
`ofInt64_maxValue`), so that the one comparison is strict and the other is not. What stands behind
the point is never rounded (`fract_finite`), so no fraction is lost, however small it is.

So the decision is exact for every bit pattern (`toInt64_ofBits`), and which patterns are accepted
can be read off their fields (`exists_toInt64_ofBits_eq_ok_iff`).
-/

set_option autoImplicit false

namespace DurationCalculator.Binary64

/-! ## The ends of the range -/

/-- The least 64-bit integer is a double. -/
theorem ofInt64_minValue : ofInt64 Int64.minValue = finite (-2 ^ 63) := by decide +kernel

/-- The largest 64-bit integer is rounded up. -/
theorem ofInt64_maxValue : ofInt64 Int64.maxValue = finite (2 ^ 63) := by decide +kernel

theorem lt_finite (p q : Rat) : (finite p).lt (finite q) = decide (p < q) := by
  simp only [lt, compare?, compareOfLessAndEq]
  split_ifs with hlt heq <;> simp [hlt]

theorem ge_finite (p q : Rat) : (finite p).ge (finite q) = decide (q ≤ p) := by
  simp only [ge, compare?, compareOfLessAndEq]
  split_ifs with hlt heq
  · simp [hlt]
  · simp [heq]
  · simp [not_lt.1 hlt]

/-! ## Behind the point -/

theorem trunc_finite {v : Rat} (h : 0 ≤ v) : (finite v).trunc = finite v.floor := by
  rw [trunc, Rat.floor_def, Int.tdiv_eq_ediv_of_nonneg (Rat.num_nonneg.2 h)]

theorem trunc_finite_intCast (n : Int) : (finite n).trunc = finite n := by
  simp [trunc]

/-- A representable number loses nothing when its integral part is taken away. -/
theorem sub_floor_finite {v : Rat} (hv : Representable v) (h0 : 0 ≤ v) :
    (finite v).sub (finite v.floor) = finite (v - v.floor) := by
  have hfraction : 0 ≤ v - v.floor := sub_nonneg.2 (Rat.floor_le v)
  have hexact := (hv.sub_floor h0).rounded_eq hfraction
  have hone : (1 : Rat) < 2 ^ (1024 : Int) := one_lt_zpow₀ one_lt_two (by decide)
  have hsmall : v - v.floor < 2 ^ (1024 : Int) := (sub_lt_comm.1 Rat.lt_floor).trans hone
  rw [sub, nearest_of_lt hfraction (by rwa [hexact]), hexact]

theorem fract_neg (x : Binary64) : x.neg.fract = x.fract.neg := by
  rw [fract, trunc_neg, sub_neg]
  rfl

theorem neg_eq_zero_iff {x : Binary64} : x.neg = finite 0 ↔ x = finite 0 := by
  cases x <;> simp [neg]

theorem exists_neg_eq_intCast_iff {q : Rat} : (∃ n : Int, -q = n) ↔ ∃ n : Int, q = n := by
  have hopposite : ∀ {p : Rat}, (∃ n : Int, p = n) → ∃ n : Int, -p = n := by
    rintro p ⟨n, rfl⟩
    exact ⟨-n, (Int.cast_neg n).symm⟩
  constructor
  · intro h
    rw [← neg_neg q]
    exact hopposite h
  · exact hopposite

/-- Nothing stands behind the point of a representable number exactly if it is an integer. -/
theorem fract_eq_zero_iff {q : Rat} (h : Representable q) :
    (finite q).fract = finite 0 ↔ ∃ n : Int, q = n := by
  have hnonneg : ∀ {v : Rat}, Representable v → 0 ≤ v →
      ((finite v).fract = finite 0 ↔ ∃ n : Int, v = n) := by
    intro v hv h0
    rw [fract, trunc_finite h0, sub_floor_finite hv h0, finite.injEq, sub_eq_zero]
    constructor
    · intro hfloor
      exact ⟨v.floor, hfloor⟩
    · rintro ⟨n, rfl⟩
      rw [Rat.floor_intCast]
  rcases le_total 0 q with h0 | h0
  · exact hnonneg h h0
  · -- the opposite number is not negative, and an integer if this one is
    have hopposite : finite q = (finite (-q)).neg := by rw [neg, neg_neg]
    rw [hopposite, fract_neg, neg_eq_zero_iff, hnonneg h.neg (neg_nonneg.2 h0),
      exists_neg_eq_intCast_iff]

/-! ## The decision -/

section ToInt64

variable {ε : Type} (error : ε)

/-- A result is an integer or the error. -/
theorem exists_toInt64_eq_ok_or_error (x : Binary64) :
    (∃ w, x.toInt64 error = .ok w) ∨ x.toInt64 error = .error error := by
  unfold toInt64
  split_ifs
  · exact .inr rfl
  · exact .inr rfl
  · exact .inr rfl
  · exact .inl ⟨_, rfl⟩

theorem toInt64_finite (q : Rat) :
    (finite q).toInt64 error =
      if q < -2 ^ 63 ∨ 2 ^ 63 ≤ q then .error error
      else if (finite q).fract ≠ finite 0 then .error error
      else .ok (finite q).clampInt64 := by
  rw [toInt64, ofInt64_minValue, ofInt64_maxValue, lt_finite, ge_finite]
  simp [isFinite]

theorem inRange_iff {n : Int} : Checked.InRange n ↔ -2 ^ 63 ≤ n ∧ n ≤ 2 ^ 63 - 1 := by
  have hmin : Int64.minValue.toInt = -2 ^ 63 := by decide
  have hmax : Int64.maxValue.toInt = 2 ^ 63 - 1 := by decide
  rw [Checked.InRange, hmin, hmax]

theorem fract_finite_intCast (n : Int) : (finite n).fract = finite 0 := by
  have hzero : rounded 0 < (2 : Rat) ^ (1024 : Int) := by
    rw [rounded_zero]
    exact zpow_pos two_pos _
  rw [fract, trunc_finite_intCast, sub, sub_self, nearest_of_lt le_rfl hzero, rounded_zero]

/-- An integer in the range is that 64-bit integer, and one outside is refused. -/
theorem toInt64_finite_intCast_eq_ok_iff {n : Int} {w : Int64} :
    (finite n).toInt64 error = .ok w ↔ w.toInt = n := by
  have houtside : ((n : Rat) < -2 ^ 63 ∨ (2 : Rat) ^ 63 ≤ n) ↔ ¬Checked.InRange n := by
    have hlow : (n : Rat) < -2 ^ 63 ↔ n < -2 ^ 63 := by exact_mod_cast Iff.rfl
    have hhigh : (2 : Rat) ^ 63 ≤ n ↔ 2 ^ 63 ≤ n := by exact_mod_cast Iff.rfl
    rw [hlow, hhigh, inRange_iff]
    omega
  have hclamp : (finite n).clampInt64 = Int64.ofIntClamp n := by simp [clampInt64]
  rw [toInt64_finite, if_neg (not_not.2 (fract_finite_intCast n)), hclamp]
  -- within the range the clamping of the conversion does nothing
  by_cases hn : Checked.InRange n
  · have hvalue : (Int64.ofIntClamp n).toInt = n := Int64.toInt_ofIntClamp hn.1 hn.2
    rw [if_neg (by rwa [houtside, not_not]), Except.ok.injEq, ← Int64.toInt_inj, hvalue, eq_comm]
  · rw [if_pos (houtside.2 hn)]
    constructor
    · intro hok
      cases hok
    · rintro rfl
      exact absurd (Checked.inRange_toInt w) hn

/-- The decision is exact: a representable number is accepted as the integer that it is. -/
theorem toInt64_finite_eq_ok_iff {q : Rat} (h : Representable q) {w : Int64} :
    (finite q).toInt64 error = .ok w ↔ q = w.toInt := by
  by_cases hfract : (finite q).fract = finite 0
  · obtain ⟨n, rfl⟩ := (fract_eq_zero_iff h).1 hfract
    rw [toInt64_finite_intCast_eq_ok_iff, Int.cast_inj, eq_comm]
  · -- a number with something behind the point is no integer, and is refused
    constructor
    · intro hok
      rw [toInt64_finite] at hok
      split_ifs at hok
    · intro hinteger
      exact absurd ((fract_eq_zero_iff h).2 ⟨_, hinteger⟩) hfract

/-- Which numbers are accepted. -/
theorem exists_toInt64_finite_eq_ok_iff {q : Rat} (h : Representable q) :
    (∃ w, (finite q).toInt64 error = .ok w) ↔
      (∃ n : Int, q = n) ∧ -2 ^ 63 ≤ q ∧ q < 2 ^ 63 := by
  rw [← fract_eq_zero_iff h, toInt64_finite]
  split_ifs with hrange hfract
  · simp only [exists_false, false_iff]
    rintro ⟨-, hlow, hhigh⟩
    exact hrange.elim (not_lt.2 hlow) (not_le.2 hhigh)
  · simp only [exists_false, false_iff]
    rintro ⟨hzero, -⟩
    exact hfract hzero
  · rw [not_or, not_lt, not_le] at hrange
    exact iff_of_true ⟨_, rfl⟩ ⟨not_not.1 hfract, hrange⟩

end ToInt64

theorem toInt64?_eq_some_iff {x : Binary64} {w : Int64} :
    x.toInt64? = some w ↔ x.toInt64 () = .ok w := by
  unfold toInt64?
  cases x.toInt64 () <;> simp [Except.toOption]

theorem toInt64?_finite_intCast (n : Int) : (finite n).toInt64? = Checked.ofInt? n := by
  ext w
  rw [toInt64?_eq_some_iff, toInt64_finite_intCast_eq_ok_iff, Checked.ofInt?_eq_some_iff]

/-- The opposite of an integer is the opposite integer, where there is one. -/
theorem toInt64?_neg_intCast {m : Int} {n opposite : Int64} (h : (finite m).toInt64? = some n)
    (hopposite : opposite.toInt = -n.toInt) : (finite m).neg.toInt64? = some opposite := by
  rw [toInt64?_finite_intCast, Checked.ofInt?_eq_some_iff] at h
  rw [neg, ← Int.cast_neg, toInt64?_finite_intCast, Checked.ofInt?_eq_some_iff, hopposite, h]

/-! ## Bit patterns -/

theorem fractionField_lt (bits : UInt64) : fractionField bits < 0x10000000000000 :=
  Nat.mod_lt _ (by decide)

/-- The significand of a finite pattern, with the leading one of a number that is not subnormal. -/
def significandOf (bits : UInt64) : Nat :=
  if exponentField bits = 0 then fractionField bits else 0x10000000000000 + fractionField bits

theorem significandOf_lt (bits : UInt64) : significandOf bits < 2 ^ 53 := by
  have hfraction := fractionField_lt bits
  rw [significandOf]
  split_ifs <;> omega

/-- The subnormal numbers share the last place of the first numbers that have a leading one. -/
theorem sizeOfBits_eq (bits : UInt64) :
    sizeOfBits bits =
      significandOf bits * (2 : Rat) ^ ((max 1 (exponentField bits) : Nat) - 1075 : Int) := by
  rw [sizeOfBits, significandOf]
  split_ifs with hexponent
  · rw [hexponent]
    norm_num
  · rw [Nat.max_eq_right (Nat.pos_of_ne_zero hexponent)]

theorem representable_sizeOfBits (bits : UInt64) : Representable (sizeOfBits bits) := by
  have hsignificand := significandOf_lt bits
  refine ⟨significandOf bits, (max 1 (exponentField bits) : Nat) - 1075, ?_, ?_, ?_⟩
  · rw [abs_of_nonneg (Int.natCast_nonneg _)]
    omega
  · omega
  · rw [sizeOfBits_eq, Int.cast_natCast]

/-- The number of a bit pattern is representable. -/
theorem representable_of_ofBits {bits : UInt64} {q : Rat} (h : ofBits bits = finite q) :
    Representable q := by
  rw [ofBits] at h
  split_ifs at h with _ _ hsign
  · cases h
    exact (representable_sizeOfBits bits).neg
  · cases h
    exact representable_sizeOfBits bits

/-- A bit pattern is accepted as the integer that its number is. -/
theorem toInt64_ofBits_eq_ok_iff {ε : Type} {bits : UInt64} {error : ε} {w : Int64} :
    (ofBits bits).toInt64 error = .ok w ↔ ofBits bits = finite w.toInt := by
  cases hnumber : ofBits bits with
  | finite q =>
      rw [toInt64_finite_eq_ok_iff error (representable_of_ofBits hnumber), finite.injEq]
  | infinite negative => simp [toInt64, isFinite]
  | nan => simp [toInt64, isFinite]

/-- Every bit pattern is accepted as the integer that its number is, if it is one and lies in the
64-bit range, and refused with the given error otherwise. Both zeros are zero, the least integer of
the range is accepted, and the first number above the range is refused. -/
theorem toInt64_ofBits {ε : Type} (bits : UInt64) (error : ε) :
    (∀ n : Int, (∃ w : Int64, (ofBits bits).toInt64 error = .ok w ∧ w.toInt = n) ↔
      ofBits bits = finite n ∧ -2 ^ 63 ≤ n ∧ n ≤ 2 ^ 63 - 1) ∧
    ((ofBits bits).toInt64 error = .error error ↔
      ¬∃ n : Int, ofBits bits = finite n ∧ -2 ^ 63 ≤ n ∧ n ≤ 2 ^ 63 - 1) ∧
    (ofBits 0).toInt64 error = .ok 0 ∧
    (ofBits 0x8000000000000000).toInt64 error = .ok 0 ∧
    (ofBits 0xc3e0000000000000).toInt64 error = .ok Int64.minValue ∧
    (ofBits 0x43e0000000000000).toInt64 error = .error error := by
  have hok : ∀ (pattern : UInt64) (n : Int),
      (∃ w : Int64, (ofBits pattern).toInt64 error = .ok w ∧ w.toInt = n) ↔
        ofBits pattern = finite n ∧ -2 ^ 63 ≤ n ∧ n ≤ 2 ^ 63 - 1 := by
    intro pattern n
    constructor
    · rintro ⟨w, hw, rfl⟩
      exact ⟨toInt64_ofBits_eq_ok_iff.1 hw, inRange_iff.1 (Checked.inRange_toInt w)⟩
    · rintro ⟨hnumber, hrange⟩
      obtain ⟨w, rfl⟩ := Checked.exists_toInt_eq (inRange_iff.2 hrange)
      exact ⟨w, toInt64_ofBits_eq_ok_iff.2 hnumber, rfl⟩
  have herror : ∀ pattern : UInt64, (ofBits pattern).toInt64 error = .error error ↔
      ¬∃ n : Int, ofBits pattern = finite n ∧ -2 ^ 63 ≤ n ∧ n ≤ 2 ^ 63 - 1 := by
    intro pattern
    constructor
    · rintro hrefused ⟨n, hn⟩
      obtain ⟨w, hw, -⟩ := (hok pattern n).2 hn
      rw [hrefused] at hw
      cases hw
    · intro hnone
      refine (exists_toInt64_eq_ok_or_error error (ofBits pattern)).resolve_left ?_
      rintro ⟨w, hw⟩
      exact hnone ⟨w.toInt, (hok pattern w.toInt).1 ⟨w, hw, rfl⟩⟩
  have hzero : ofBits 0 = finite (0 : Int64).toInt := by decide +kernel
  have hnegativeZero : ofBits 0x8000000000000000 = finite (0 : Int64).toInt := by decide +kernel
  have hleast : ofBits 0xc3e0000000000000 = finite Int64.minValue.toInt := by decide +kernel
  have habove : ofBits 0x43e0000000000000 = finite (2 ^ 63 : Int) := by decide +kernel
  refine ⟨hok bits, herror bits, toInt64_ofBits_eq_ok_iff.2 hzero,
    toInt64_ofBits_eq_ok_iff.2 hnegativeZero, toInt64_ofBits_eq_ok_iff.2 hleast,
    (herror _).2 ?_⟩
  rintro ⟨n, hn, -, hmax⟩
  rw [habove, finite.injEq, Int.cast_inj] at hn
  omega

/-! ## The fields of a pattern -/

/-- A number is an integer exactly if the bits behind its point are zeros. -/
theorem exists_eq_intCast_iff_dvd (significand exponent bias : Nat) :
    (∃ n : Int, (significand : Rat) * 2 ^ (exponent - bias : Int) = n) ↔
      2 ^ (bias - exponent) ∣ significand := by
  rcases Nat.le_total bias exponent with hle | hle
  · -- the last place is not behind the point
    obtain ⟨places, rfl⟩ := Nat.exists_eq_add_of_le hle
    rw [Nat.sub_eq_zero_of_le hle, Nat.pow_zero, Nat.cast_add, add_sub_cancel_left, zpow_natCast]
    refine iff_of_true ⟨significand * 2 ^ places, ?_⟩ (one_dvd _)
    push_cast
    rfl
  · obtain ⟨places, rfl⟩ := Nat.exists_eq_add_of_le hle
    have hexponent : (exponent - (exponent + places : Nat) : Int) = -places := by omega
    rw [hexponent, Nat.add_sub_cancel_left, zpow_neg, zpow_natCast, ← div_eq_mul_inv,
      ← Int.natCast_dvd_natCast]
    refine exists_congr fun n => ?_
    rw [div_eq_iff (by positivity), mul_comm]
    exact_mod_cast Iff.rfl

/-- How large a number is can be read off its exponent. -/
theorem sizeOfBits_lt_iff (bits : UInt64) {exponent : Nat} (h : 1 < exponent) :
    sizeOfBits bits < 2 ^ (exponent - 1023 : Int) ↔ exponentField bits < exponent := by
  have hsplit : ∀ places : Nat, (2 : Rat) ^ places * 2 ^ (exponent - 1023 - places : Int) =
      2 ^ (exponent - 1023 : Int) := by
    intro places
    rw [← zpow_natCast, ← zpow_add₀ two_ne_zero, add_sub_cancel]
  rw [sizeOfBits_eq]
  constructor
  · intro hlt
    by_contra hge
    -- beyond the subnormal numbers the leading one alone is large enough
    have hsignificand : 2 ^ 52 ≤ significandOf bits := by
      rw [significandOf, if_neg (by omega)]
      exact Nat.le_add_right _ _
    have hplace : (2 : Rat) ^ (exponent - 1023 - (52 : Nat) : Int) ≤
        2 ^ ((max 1 (exponentField bits) : Nat) - 1075 : Int) :=
      zpow_le_zpow_right₀ one_le_two (by omega)
    refine absurd hlt (not_lt.2 ?_)
    rw [← hsplit 52]
    exact mul_le_mul (by exact_mod_cast hsignificand) hplace (zpow_pos two_pos _).le
      (Nat.cast_nonneg _)
  · intro hlt
    have hsignificand : (significandOf bits : Rat) < 2 ^ 53 := by
      exact_mod_cast significandOf_lt bits
    have hplace : (2 : Rat) ^ ((max 1 (exponentField bits) : Nat) - 1075 : Int) ≤
        2 ^ (exponent - 1023 - (53 : Nat) : Int) :=
      zpow_le_zpow_right₀ one_le_two (by omega)
    rw [← hsplit 53]
    exact mul_lt_mul hsignificand hplace (zpow_pos two_pos _) (by positivity)

theorem sizeOfBits_lt_range_iff (bits : UInt64) :
    sizeOfBits bits < 2 ^ 63 ↔ exponentField bits < 1086 :=
  sizeOfBits_lt_iff bits (by decide : 1 < 1086)

/-- Of the numbers beyond the range the first is the one without a bit of fraction. -/
theorem sizeOfBits_le_range_iff (bits : UInt64) :
    sizeOfBits bits ≤ 2 ^ 63 ↔
      exponentField bits < 1086 ∨ exponentField bits = 1086 ∧ fractionField bits = 0 := by
  rcases Nat.lt_trichotomy (exponentField bits) 1086 with hlt | hend | hgt
  · exact iff_of_true ((sizeOfBits_lt_range_iff bits).2 hlt).le (.inl hlt)
  · have hsize : sizeOfBits bits = ((2 ^ 52 + fractionField bits) * 2 ^ 11 : Nat) := by
      rw [sizeOfBits, hend]
      norm_num
    have hle : sizeOfBits bits ≤ 2 ^ 63 ↔ (2 ^ 52 + fractionField bits) * 2 ^ 11 ≤ 2 ^ 63 := by
      rw [hsize]
      exact_mod_cast Iff.rfl
    rw [hle, hend]
    omega
  · refine iff_of_false ?_ (by omega)
    have hge := mt (sizeOfBits_lt_iff bits (by decide : 1 < 1087)).1 (by omega)
    intro hle
    exact hge (hle.trans_lt (by norm_num))

/-- Which patterns are accepted can be read off their fields: those of the numbers below `2 ^ 63`
that have only zeros behind the point, and that of the least integer. -/
theorem exists_toInt64_ofBits_eq_ok_iff {ε : Type} {bits : UInt64} {error : ε} :
    (∃ w, (ofBits bits).toInt64 error = .ok w) ↔
      exponentField bits < 1086 ∧
          2 ^ (1075 - max 1 (exponentField bits)) ∣ significandOf bits ∨
        signBit bits ∧ exponentField bits = 1086 ∧ fractionField bits = 0 := by
  by_cases hexponent : exponentField bits = 0x7ff
  · have hrefused : (ofBits bits).toInt64 error = .error error := by
      rw [ofBits, if_pos hexponent]
      split_ifs <;> rfl
    rw [hrefused, hexponent]
    simp
  · have hinteger : (∃ n : Int, sizeOfBits bits = n) ↔
        2 ^ (1075 - max 1 (exponentField bits)) ∣ significandOf bits := by
      rw [sizeOfBits_eq]
      exact exists_eq_intCast_iff_dvd _ _ 1075
    have hnonneg : 0 ≤ sizeOfBits bits := by
      rw [sizeOfBits_eq]
      positivity
    have hrepresentable := representable_sizeOfBits bits
    rw [ofBits, if_neg hexponent]
    cases signBit bits with
    | false =>
        have hlow : -2 ^ 63 ≤ sizeOfBits bits := le_trans (by norm_num) hnonneg
        simp only [Bool.false_eq_true, if_false, false_and, or_false]
        rw [exists_toInt64_finite_eq_ok_iff error hrepresentable, hinteger,
          sizeOfBits_lt_range_iff, and_iff_right hlow, and_comm]
    | true =>
        have hhigh : -sizeOfBits bits < 2 ^ 63 :=
          (neg_nonpos.2 hnonneg).trans_lt (by norm_num)
        -- the bits of the least integer all stand in front of the point
        have hleast : exponentField bits = 1086 ∧ fractionField bits = 0 →
            2 ^ (1075 - max 1 (exponentField bits)) ∣ significandOf bits := by
          rintro ⟨hend, -⟩
          rw [hend]
          exact one_dvd _
        simp only [if_true, true_and]
        rw [exists_toInt64_finite_eq_ok_iff error hrepresentable.neg,
          exists_neg_eq_intCast_iff, hinteger, neg_le_neg_iff, sizeOfBits_le_range_iff,
          and_iff_left hhigh, and_or_left, and_iff_right_of_imp hleast, and_comm]

end DurationCalculator.Binary64
