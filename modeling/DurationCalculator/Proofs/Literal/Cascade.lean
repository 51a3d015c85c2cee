import DurationCalculator.Proofs.Binary64.Integers
import DurationCalculator.Proofs.Literal.Whole

/-!
# Handing a number down through the units

Each unit takes the integral part of what it is handed, and hands the fraction, multiplied by the
ratio and rounded, to the next smaller one. Over unbounded integers this is `countAlong`, and the
checked run through the units yields that count if it lies in the 64-bit range
(`cascadeAlong_finite`).

A fraction below one is so far away from one that its rounded product stays below the ratio
(`handedDown_lt`). So nothing is carried upward: the units below take less than one of the unit
above (`countAlong_bounds`), and what is taken grows with the number (`countAlong_mono`).
-/

set_option autoImplicit false

namespace DurationCalculator

namespace TimeUnit

/-- The units below a unit, each the next smaller one, down to the last. -/
inductive Descends : TimeUnit → List TimeUnit → Prop where
  | last {unit : TimeUnit} : unit.smaller? = none → Descends unit []
  | next {unit next : TimeUnit} {ratio : Nat} {below : List TimeUnit} :
      unit.smaller? = some (next, ratio) → Descends next below → Descends unit (next :: below)

theorem descends_smallerUnits (unit : TimeUnit) : Descends unit unit.smallerUnits := by
  have hnano : Descends nanosecond [] := .last rfl
  have hmicro : Descends microsecond [nanosecond] := .next rfl hnano
  have hmilli : Descends millisecond [microsecond, nanosecond] := .next rfl hmicro
  have hsecond : Descends second [millisecond, microsecond, nanosecond] := .next rfl hmilli
  have hminute : Descends minute [second, millisecond, microsecond, nanosecond] := .next rfl hsecond
  cases unit with
  | hour => exact .next rfl hminute
  | minute => exact hminute
  | second => exact hsecond
  | millisecond => exact hmilli
  | microsecond => exact hmicro
  | nanosecond => exact hnano

theorem ratio_of_smaller? {unit next : TimeUnit} {ratio : Nat}
    (h : unit.smaller? = some (next, ratio)) : ratio = 60 ∨ ratio = 1000 := by
  cases unit <;> cases h <;> decide

end TimeUnit

namespace DurationLiteral

open Binary64

/-! ## Over unbounded integers -/

/-- What a unit hands down to the next smaller one. -/
def handedDown (v : Rat) (ratio : Nat) : Rat := rounded ((v - v.floor) * ratio)

/-- The nanoseconds that the units take one after the other. -/
def countAlong (v : Rat) : List TimeUnit → Int
  | [] => 0
  | unit :: below =>
      v.floor * unit.length.count +
        match unit.smaller? with
        | none => 0
        | some (_, ratio) => countAlong (handedDown v ratio) below

/-- The nanoseconds of `v` units, from the unit down to nanoseconds. -/
def countOf (v : Rat) (unit : TimeUnit) : Int := countAlong v (unit :: unit.smallerUnits)

theorem countAlong_last {unit : TimeUnit} (h : unit.smaller? = none) (v : Rat)
    (below : List TimeUnit) : countAlong v (unit :: below) = v.floor * unit.length.count := by
  rw [countAlong, h]
  exact add_zero _

theorem countAlong_next {unit next : TimeUnit} {ratio : Nat}
    (h : unit.smaller? = some (next, ratio)) (v : Rat) (below : List TimeUnit) :
    countAlong v (unit :: below) =
      v.floor * unit.length.count + countAlong (handedDown v ratio) below := by
  rw [countAlong, h]

/-! ## What is handed down -/

section HandedDown

variable {v : Rat} {ratio : Nat}

theorem handedDown_nonneg (v : Rat) (ratio : Nat) : 0 ≤ handedDown v ratio :=
  rounded_nonneg (mul_nonneg (sub_nonneg.2 (Rat.floor_le v)) (Nat.cast_nonneg _))

theorem representable_handedDown (v : Rat) (ratio : Nat) : Representable (handedDown v ratio) :=
  representable_rounded (mul_nonneg (sub_nonneg.2 (Rat.floor_le v)) (Nat.cast_nonneg _))

/-- Less than one of the unit above is handed down. -/
theorem handedDown_lt (h : Representable v) (h0 : 0 ≤ v) (hratio : ratio = 60 ∨ ratio = 1000) :
    handedDown v ratio < ratio :=
  rounded_mul_lt (h.sub_floor h0) (sub_nonneg.2 (Rat.floor_le v)) (sub_lt_comm.1 Rat.lt_floor) hratio

/-- So a unit takes less than one of the unit above. -/
theorem floor_handedDown_lt (h : Representable v) (h0 : 0 ≤ v)
    (hratio : ratio = 60 ∨ ratio = 1000) : (handedDown v ratio).floor < ratio := by
  have hlt := handedDown_lt h h0 hratio
  exact Rat.floor_lt_iff.2 (by exact_mod_cast hlt)

theorem handedDown_mono {w : Rat} (hle : v ≤ w) (hfloor : v.floor = w.floor) :
    handedDown v ratio ≤ handedDown w ratio := by
  refine rounded_mono (mul_nonneg (sub_nonneg.2 (Rat.floor_le v)) (Nat.cast_nonneg _)) ?_
  rw [hfloor]
  exact mul_le_mul_of_nonneg_right (sub_le_sub_right hle _) (Nat.cast_nonneg _)

theorem handedDown_intCast (n : Int) (ratio : Nat) : handedDown n ratio = 0 := by
  rw [handedDown, Rat.floor_intCast, sub_self, zero_mul, rounded_zero]

end HandedDown

/-! ## What is taken -/

theorem countAlong_nonneg {v : Rat} (h : 0 ≤ v) (units : List TimeUnit) :
    0 ≤ countAlong v units := by
  induction units generalizing v with
  | nil => exact le_rfl
  | cons unit below ih =>
      have htaken := mul_nonneg (Rat.le_floor_iff.2 h) (zero_le_one.trans unit.one_le_count_length)
      rw [countAlong]
      split
      · omega
      · exact add_nonneg htaken (ih (handedDown_nonneg v _))

theorem floor_mul_le_countAlong (v : Rat) (unit : TimeUnit) (below : List TimeUnit) :
    v.floor * unit.length.count ≤ countAlong v (unit :: below) := by
  rw [countAlong]
  refine le_add_of_nonneg_right ?_
  split
  · exact le_rfl
  · exact countAlong_nonneg (handedDown_nonneg v _) below

/-- The units below a unit take less than one of it. -/
theorem countAlong_bounds {unit : TimeUnit} {below : List TimeUnit} (h : unit.Descends below)
    {v : Rat} (hv : Representable v) (h0 : 0 ≤ v) :
    v.floor * unit.length.count ≤ countAlong v (unit :: below) ∧
      countAlong v (unit :: below) < (v.floor + 1) * unit.length.count := by
  induction h generalizing v with
  | @last unit hlast =>
      have hlength := unit.one_le_count_length
      rw [countAlong_last hlast, add_mul]
      omega
  | @next unit next ratio below hnext _ ih =>
      obtain ⟨hlow, hhigh⟩ := ih (representable_handedDown v ratio) (handedDown_nonneg v ratio)
      have hfloor : 0 ≤ (handedDown v ratio).floor :=
        Rat.le_floor_iff.2 (handedDown_nonneg v ratio)
      have hlength := next.one_le_count_length
      have hcarry : (handedDown v ratio).floor + 1 ≤ ratio :=
        Int.add_one_le_of_lt (floor_handedDown_lt hv h0 (TimeUnit.ratio_of_smaller? hnext))
      rw [countAlong_next hnext, add_mul, one_mul, TimeUnit.length_eq_of_smaller? hnext]
      constructor
      · have htaken := mul_nonneg hfloor (zero_le_one.trans hlength)
        omega
      · have hbelow := mul_le_mul_of_nonneg_right hcarry (zero_le_one.trans hlength)
        omega

/-- One more of a unit is more than the units below it take. -/
theorem countAlong_le_of_floor_lt {unit : TimeUnit} {below : List TimeUnit}
    (h : unit.Descends below) {v w : Rat} (hv : Representable v) (hw : Representable w)
    (h0 : 0 ≤ v) (hfloor : v.floor < w.floor) :
    countAlong v (unit :: below) ≤ countAlong w (unit :: below) := by
  have hw0 : 0 ≤ w := by
    have hle : ((0 : Int) : Rat) ≤ w := Rat.le_floor_iff.1 ((Rat.le_floor_iff.2 h0).trans hfloor.le)
    exact_mod_cast hle
  have hlower := (countAlong_bounds h hv h0).2
  have hupper := (countAlong_bounds h hw hw0).1
  have hone := mul_le_mul_of_nonneg_right (Int.add_one_le_of_lt hfloor)
    (zero_le_one.trans unit.one_le_count_length)
  omega

/-- A larger number takes no less. -/
theorem countAlong_mono {unit : TimeUnit} {below : List TimeUnit} (h : unit.Descends below)
    {v w : Rat} (hv : Representable v) (hw : Representable w) (h0 : 0 ≤ v) (hle : v ≤ w) :
    countAlong v (unit :: below) ≤ countAlong w (unit :: below) := by
  induction h generalizing v w with
  | last hlast =>
      rw [countAlong_last hlast, countAlong_last hlast]
      exact mul_le_mul_of_nonneg_right (Rat.floor_monotone hle)
        (zero_le_one.trans (TimeUnit.one_le_count_length _))
  | @next unit next ratio below hnext hbelow ih =>
      rcases (Rat.floor_monotone hle).eq_or_lt with hfloor | hfloor
      · -- the unit takes the same, and hands down no less
        rw [countAlong_next hnext, countAlong_next hnext, hfloor]
        have hrest := ih (representable_handedDown v ratio) (representable_handedDown w ratio)
          (handedDown_nonneg v ratio) (handedDown_mono hle hfloor)
        omega
      · exact countAlong_le_of_floor_lt (.next hnext hbelow) hv hw h0 hfloor

theorem countAlong_zero (units : List TimeUnit) : countAlong 0 units = 0 := by
  induction units with
  | nil => rfl
  | cons unit below ih =>
      have hfloor : (0 : Rat).floor = 0 := rfl
      have hzero (ratio : Nat) : handedDown 0 ratio = 0 := by
        exact_mod_cast handedDown_intCast 0 ratio
      rw [countAlong, hfloor, zero_mul]
      split
      · rfl
      · rw [hzero, ih, add_zero]

/-- A whole number is taken at once. -/
theorem countAlong_natCast (n : Nat) (unit : TimeUnit) (below : List TimeUnit) :
    countAlong n (unit :: below) = n * unit.length.count := by
  have hfloor : (n : Rat).floor = n := by exact_mod_cast Rat.floor_intCast n
  have hzero (ratio : Nat) : handedDown n ratio = 0 := by
    exact_mod_cast handedDown_intCast n ratio
  rw [countAlong, hfloor]
  split
  · exact add_zero _
  · rw [hzero, countAlong_zero, add_zero]

/-! ## Checked counts -/

/-- What a representable number hands down is a double. -/
theorem scale_sub_finite {v : Rat} (hv : Representable v) (h0 : 0 ≤ v) {ratio : Nat}
    (hratio : ratio = 60 ∨ ratio = 1000) :
    ((finite v).sub (finite v.floor)).scale ratio = finite (handedDown v ratio) := by
  have hten : (ratio : Rat) < 2 ^ (10 : Int) := by
    rcases hratio with rfl | rfl <;> norm_num
  have hratioBound : (ratio : Rat) < 2 ^ (1024 : Int) :=
    hten.trans (zpow_lt_zpow_right₀ one_lt_two (by decide))
  rw [sub_floor_finite hv h0, scale, nearest_of_lt
    (mul_nonneg (sub_nonneg.2 (Rat.floor_le v)) (Nat.cast_nonneg _))
    ((handedDown_lt hv h0 hratio).trans hratioBound)]
  rfl

/-- A unit takes its whole number, if this and the sum lie in the 64-bit range. -/
theorem bind_add?_eq_ofCount? {n : Int} (hn : 0 ≤ n) {total : Duration} (ht : 0 ≤ total.count)
    (unit : TimeUnit) :
    ((Checked.ofInt? n).bind fun count =>
        (unit.length.mul? count).bind fun part => total.add? part) =
      Duration.ofCount? (total.count + n * unit.length.count) := by
  have hpart := unit.bind_mul?_eq_ofCount? hn
  rw [mul_comm] at hpart
  rw [← Option.bind_assoc, hpart]
  cases hcount : Duration.ofCount? (n * unit.length.count) with
  | none =>
      have hnonneg := mul_nonneg hn (zero_le_one.trans unit.one_le_count_length)
      exact (Duration.ofCount?_eq_none_of_le hcount hnonneg (by omega)).symm
  | some part =>
      have hvalue : part.count = n * unit.length.count := Duration.ofCount?_eq_some_iff.1 hcount
      rw [← hvalue]
      rfl

/-- Checking each step is checking the sum. -/
theorem cascadeAlong_finite {v : Rat} (hv : Representable v) (h0 : 0 ≤ v) {total : Duration}
    (ht : 0 ≤ total.count) (units : List TimeUnit) :
    cascadeAlong (finite v) total units =
      Duration.ofCount? (total.count + countAlong v units) := by
  induction units generalizing v total with
  | nil =>
      rw [countAlong, add_zero, Duration.ofCount?_eq_some_iff.2 rfl]
      rfl
  | cons unit below ih =>
      have htake := bind_add?_eq_ofCount? (Rat.le_floor_iff.2 h0) ht unit
      have htaken := mul_nonneg (Rat.le_floor_iff.2 h0) (zero_le_one.trans unit.one_le_count_length)
      have hstep : cascadeAlong (finite v) total (unit :: below) =
          (Duration.ofCount? (total.count + v.floor * unit.length.count)).bind fun sum =>
            match unit.smaller? with
            | none => some sum
            | some (_, ratio) =>
                cascadeAlong (((finite v).sub (finite v.floor)).scale ratio) sum below := by
        rw [← htake, cascadeAlong, trunc_finite h0, toInt64?_finite_intCast]
        simp only [Option.bind_assoc]
        rfl
      rw [hstep]
      cases hsum : Duration.ofCount? (total.count + v.floor * unit.length.count) with
      | none =>
          -- what the other units take cannot bring the sum back into the range
          have hle := floor_mul_le_countAlong v unit below
          exact (Duration.ofCount?_eq_none_of_le hsum (by omega) (by omega)).symm
      | some sum =>
          have hcount : sum.count = total.count + v.floor * unit.length.count :=
            Duration.ofCount?_eq_some_iff.1 hsum
          rw [Option.bind_some]
          cases hsmaller : unit.smaller? with
          | none => rw [countAlong_last hsmaller, hsum]
          | some smaller =>
              obtain ⟨next, ratio⟩ := smaller
              have hsumNonneg : 0 ≤ sum.count := by omega
              have hrest := ih (representable_handedDown v ratio) (handedDown_nonneg v ratio)
                hsumNonneg
              dsimp only
              rw [scale_sub_finite hv h0 (TimeUnit.ratio_of_smaller? hsmaller), hrest,
                countAlong_next hsmaller, hcount, add_assoc]

/-- The checked run from a unit down to nanoseconds. -/
theorem cascade?_finite {v : Rat} (hv : Representable v) (h0 : 0 ≤ v) (unit : TimeUnit) :
    cascade? (finite v) unit = Duration.ofCount? (countOf v unit) := by
  have hzero : Duration.zero.count = 0 := rfl
  rw [cascade?, cascadeAlong_finite hv h0 hzero.ge, hzero, zero_add]
  rfl

/-- A number that is too large for a double is too large for a duration. -/
theorem cascade?_nearest {q : Rat} (h : 0 ≤ q) (unit : TimeUnit) :
    cascade? (nearest q) unit = Duration.ofCount? (countOf (rounded q) unit) := by
  have hnonneg := rounded_nonneg h
  by_cases hlarge : rounded q < (2 : Rat) ^ (1024 : Int)
  · rw [nearest_of_lt h hlarge, cascade?_finite (representable_rounded h) hnonneg]
  · rw [not_lt] at hlarge
    rw [nearest_of_le h hlarge]
    have hlimit : Int64.maxValue.toInt < 2 ^ 63 := by decide
    have hpower : (2 : Rat) ^ (63 : Int) ≤ 2 ^ (1024 : Int) :=
      zpow_le_zpow_right₀ one_le_two (by decide)
    have hfloor : 2 ^ 63 ≤ (rounded q).floor :=
      Rat.le_floor_iff.2 (by exact_mod_cast hpower.trans hlarge)
    have hunit := le_mul_of_one_le_right (Rat.le_floor_iff.2 hnonneg) unit.one_le_count_length
    have htaken := floor_mul_le_countAlong (rounded q) unit unit.smallerUnits
    symm
    refine Duration.ofCount?_eq_none_iff.2 ?_
    rintro ⟨-, hmax⟩
    rw [countOf] at hmax
    omega

end DurationLiteral

end DurationCalculator
