import DurationCalculator.Proofs.Literal.Cascade

/-!
# What each unit takes

A number that is handed down through the units is an integral double at each of them, taken off
what the unit is handed (`sharesAlong`). For a double that is not negative these are the floors of
what is handed down (`sharesAlong_finite`). None of them below the first reaches the ratio to the
unit above (`uncarried_takenAlong`): what would have to be carried upward is never handed down.

So the duration is at least the whole number of the first unit and less than one more of it, and
there is none exactly if the shares together are more than 64 bits hold
(`cascade_carries_nothing`). That the partial sums are checked, and not their total, makes no
difference.
-/

set_option autoImplicit false

namespace DurationCalculator.DurationLiteral

open Binary64

/-! ## Shares -/

/-- What each of the units takes of `value` of the first one, as a double. -/
def sharesAlong (value : Binary64) : List TimeUnit → List (TimeUnit × Binary64)
  | [] => []
  | unit :: below =>
      (unit, value.trunc) ::
        match unit.smaller? with
        | none => []
        | some (_, ratio) => sharesAlong ((value.sub value.trunc).scale ratio) below

/-- The nanoseconds of all shares together, over unbounded integers. -/
def total : List (TimeUnit × Int) → Int
  | [] => 0
  | (unit, count) :: rest => count * unit.length.count + total rest

/-- Each share below the first is less than one of the unit above it. -/
def Uncarried (shares : List (TimeUnit × Int)) : Prop :=
  shares.IsChain fun (upper lower : TimeUnit × Int) =>
    ∃ ratio : Nat, upper.1.smaller? = some (lower.1, ratio) ∧ 0 ≤ lower.2 ∧ lower.2 < ratio

/-! ## Shares of a double -/

/-- What each of the units takes of `v` of the first one. -/
def takenAlong (v : Rat) : List TimeUnit → List (TimeUnit × Int)
  | [] => []
  | unit :: below =>
      (unit, v.floor) ::
        match unit.smaller? with
        | none => []
        | some (_, ratio) => takenAlong (handedDown v ratio) below

theorem takenAlong_last {unit : TimeUnit} (h : unit.smaller? = none) (v : Rat)
    (below : List TimeUnit) : takenAlong v (unit :: below) = [(unit, v.floor)] := by
  rw [takenAlong, h]

theorem takenAlong_next {unit next : TimeUnit} {ratio : Nat}
    (h : unit.smaller? = some (next, ratio)) (v : Rat) (below : List TimeUnit) :
    takenAlong v (unit :: below) = (unit, v.floor) :: takenAlong (handedDown v ratio) below := by
  rw [takenAlong, h]

/-- The operations on doubles yield these shares. -/
theorem sharesAlong_finite {v : Rat} (hv : Representable v) (h0 : 0 ≤ v) (units : List TimeUnit) :
    sharesAlong (finite v) units =
      (takenAlong v units).map (Prod.map id fun count : Int => finite count) := by
  induction units generalizing v with
  | nil => rfl
  | cons unit below ih =>
      rw [sharesAlong, trunc_finite h0]
      cases hsmaller : unit.smaller? with
      | none =>
          rw [takenAlong_last hsmaller]
          rfl
      | some smaller =>
          obtain ⟨next, ratio⟩ := smaller
          have hrest := ih (representable_handedDown v ratio) (handedDown_nonneg v ratio)
          dsimp only
          -- only the product is rounded, and what it is rounded to is a double again
          rw [scale_sub_finite hv h0 (TimeUnit.ratio_of_smaller? hsmaller), hrest,
            takenAlong_next hsmaller]
          rfl

theorem total_takenAlong (v : Rat) (units : List TimeUnit) :
    total (takenAlong v units) = countAlong v units := by
  induction units generalizing v with
  | nil => rfl
  | cons unit below ih =>
      cases hsmaller : unit.smaller? with
      | none =>
          rw [takenAlong_last hsmaller, countAlong_last hsmaller]
          exact add_zero _
      | some smaller =>
          obtain ⟨next, ratio⟩ := smaller
          rw [takenAlong_next hsmaller, countAlong_next hsmaller, total, ih]

/-- Nothing is carried upward. -/
theorem uncarried_takenAlong {unit : TimeUnit} {below : List TimeUnit} (h : unit.Descends below)
    {v : Rat} (hv : Representable v) (h0 : 0 ≤ v) : Uncarried (takenAlong v (unit :: below)) := by
  induction h generalizing v with
  | last hlast =>
      rw [takenAlong_last hlast]
      exact .singleton _
  | @next unit next ratio below hnext _ ih =>
      have hrest := ih (representable_handedDown v ratio) (handedDown_nonneg v ratio)
      have hfloor : 0 ≤ (handedDown v ratio).floor :=
        Rat.le_floor_iff.2 (handedDown_nonneg v ratio)
      -- the product with the ratio may be rounded upward, but not as far as to the ratio
      have hlt := floor_handedDown_lt hv h0 (TimeUnit.ratio_of_smaller? hnext)
      rw [takenAlong_next hnext]
      exact .cons_cons ⟨ratio, hnext, hfloor, hlt⟩ hrest

/-! ## The checked run -/

/-- There is no duration exactly if the shares together lie above the range. -/
theorem ofCount?_countOf_eq_none_iff {v : Rat} (h0 : 0 ≤ v) (unit : TimeUnit) :
    Duration.ofCount? (countOf v unit) = none ↔ Int64.maxValue.toInt < countOf v unit := by
  constructor
  · intro hnone
    by_contra hle
    obtain ⟨d, hd, -⟩ := Duration.exists_ofCount?_of_le (countAlong_nonneg h0 _) (not_lt.1 hle)
    rw [countOf, hd] at hnone
    cases hnone
  · intro hlt
    exact Duration.ofCount?_eq_none_of_lt hlt

/-- Handing a double down through the units carries nothing upward. Each unit takes an integer,
and each but the first less than one of the unit above; so the duration, where there is one, lies
between the whole number of the first unit and the next whole number. There is none exactly if the
shares together are more than the largest count of nanoseconds. -/
theorem cascade_carries_nothing {bits : UInt64} {v : Rat} (hbits : ofBits bits = finite v)
    (h0 : 0 ≤ v) (unit : TimeUnit) :
    ∃ shares : List (TimeUnit × Int),
      sharesAlong (finite v) (unit :: unit.smallerUnits) =
          shares.map (Prod.map id fun count : Int => finite count) ∧
        Uncarried shares ∧
        (∀ d, cascade? (finite v) unit = some d →
          d.count = total shares ∧ ∃ whole : Int, (finite v).trunc = finite whole ∧
            whole * unit.length.count ≤ d.count ∧ d.count < (whole + 1) * unit.length.count) ∧
        (cascade? (finite v) unit = none ↔ Int64.maxValue.toInt < total shares) := by
  have hv := representable_of_ofBits hbits
  have hunits := unit.descends_smallerUnits
  have htotal : total (takenAlong v (unit :: unit.smallerUnits)) = countOf v unit :=
    total_takenAlong v _
  refine ⟨takenAlong v (unit :: unit.smallerUnits), sharesAlong_finite hv h0 _,
    uncarried_takenAlong hunits hv h0, ?_, ?_⟩
  · -- a duration is checked at every addition, so its count is that over unbounded integers
    intro d hd
    rw [cascade?_finite hv h0, Duration.ofCount?_eq_some_iff] at hd
    rw [htotal, hd]
    exact ⟨rfl, v.floor, trunc_finite h0, countAlong_bounds hunits hv h0⟩
  · rw [cascade?_finite hv h0, htotal]
    exact ofCount?_countOf_eq_none_iff h0 unit

/-- The greatest double below one is one nanosecond short of an hour. In `2562047.8` hours nothing
is carried upward either, but there is no such duration: the whole hours alone are in the range,
and the shares together are not. -/
theorem cascade_carries_nothing_in_hours :
    let below : Rat := 9007199254740991 / 9007199254740992
    let above : Rat := 2750977877947187 / 1073741824
    (ofBits 0x3fefffffffffffff = finite below ∧ 0 ≤ below ∧
        cascade? (finite below) .hour = some ⟨3599999999999⟩ ∧
        ∃ shares, Uncarried shares ∧ total shares = 3599999999999) ∧
      (ofBits 0x41438bffe6666666 = finite above ∧ 0 ≤ above ∧
        cascade? (finite above) .hour = none ∧
        ∃ shares, Uncarried shares ∧ Int64.maxValue.toInt < total shares) := by
  intro below above
  have hbelow : ofBits 0x3fefffffffffffff = finite below := by decide +kernel
  have habove : ofBits 0x41438bffe6666666 = finite above := by decide +kernel
  have hbelow0 : 0 ≤ below := by decide +kernel
  have habove0 : 0 ≤ above := by decide +kernel
  have hshort : cascade? (finite below) .hour = some ⟨3599999999999⟩ := by decide +kernel
  have hnone : cascade? (finite above) .hour = none := by decide +kernel
  obtain ⟨shares, -, huncarried, hduration, -⟩ := cascade_carries_nothing hbelow hbelow0 .hour
  obtain ⟨shares', -, huncarried', -, hrange⟩ := cascade_carries_nothing habove habove0 .hour
  exact ⟨⟨hbelow, hbelow0, hshort, shares, huncarried, (hduration _ hshort).1.symm⟩,
    habove, habove0, hnone, shares', huncarried', hrange.1 hnone⟩

end DurationCalculator.DurationLiteral
