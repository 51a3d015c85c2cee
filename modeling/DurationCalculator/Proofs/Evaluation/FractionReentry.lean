import DurationCalculator.Proofs.Evaluation.Reentry
import DurationCalculator.Proofs.Literal.CascadeError
import DurationCalculator.Proofs.Literal.Fraction

/-!
# Fractional results that are fed back

Only the last part of a canonical text can have a fraction, and its number is below a thousand
(`Shape.exists_last`). So that part is read with the loss of at most one nanosecond, and the others
exactly (`Part.WellFormed.exists_readsAs`). Fed back, a text with a point has the duration that was
written, or one nanosecond less (`fractional_results_reenter`).
-/

set_option autoImplicit false

namespace DurationCalculator

open Grammar

namespace Duration

/-! ## Parts with a fraction -/

namespace Part

/-- A unit with a fraction counts nanoseconds in its last place, and is no longer than a second. -/
theorem WellFormed.unit_of_fraction {p : Part} (h : p.WellFormed) (hne : p.fraction ≠ []) :
    p.unit.length.count = 10 ^ p.unit.places ∧ p.unit.length.count ≤ 1000000000 ∧
      p.unit ≠ .nanosecond := by
  have hplaces : 0 < p.unit.places := (List.length_pos_of_ne_nil hne).trans_le h.places
  cases hunit : p.unit with
  | second => decide
  | millisecond => decide
  | microsecond => decide
  | _ =>
      rw [hunit] at hplaces
      exact absurd hplaces (by decide)

/-- The number of a part, in its unit, is below the next whole number. -/
theorem WellFormed.exact_lt {p : Part} (h : p.WellFormed) :
    Decimal.exact p.whole p.fraction < p.count + 1 := by
  have hfraction := Decimal.value_lt h.fraction
  have hpos : (0 : Rat) < 10 ^ p.fraction.length := by positivity
  have hlt : 10 ^ p.fraction.length * Decimal.value p.whole + Decimal.value p.fraction <
      (p.count + 1) * 10 ^ p.fraction.length := by
    rw [count, add_mul, one_mul, mul_comm]
    omega
  rw [Decimal.exact, Decimal.value_append, div_lt_iff₀ hpos]
  exact_mod_cast hlt

/-- The nanoseconds of a part with a fraction are a whole number. -/
theorem WellFormed.exists_nanoseconds {p : Part} (h : p.WellFormed) (hne : p.fraction ≠ []) :
    ∃ n : Int, p.nanoseconds = n := by
  obtain ⟨hlength, -, -⟩ := h.unit_of_fraction hne
  obtain ⟨n, hp, -⟩ := h.exists_ofNat
  refine ⟨n, ?_⟩
  rw [hp]
  exact_mod_cast nanoseconds_ofNat_of_length hlength n

theorem WellFormed.value_literal_of_fraction {p : Part} (h : p.WellFormed) (hne : p.fraction ≠ [])
    {d : Duration}
    (hd : d.count =
      DurationLiteral.countOf (Binary64.rounded (Decimal.exact p.whole p.fraction)) p.unit) :
    p.literal.value = .ok (.duration d) := by
  obtain ⟨-, -, hunit⟩ := h.unit_of_fraction hne
  have hpoint : DurationLiteral.isSeparator '.' := rfl
  have hread := DurationLiteral.read_separated h.isNumeral_whole hpoint
    (isNumeral_iff.2 ⟨hne, h.fraction⟩) hunit
  rw [ofCount?_eq_some_iff.2 hd] at hread
  rw [Part.literal, pointed, if_neg hne, Literal.value, DurationLiteral.parse, String.toList_ofList,
    hread]
  rfl

/-- A part with a fraction may lose one nanosecond. -/
theorem WellFormed.readsAs_of_fraction {p : Part} (h : p.WellFormed) (hne : p.fraction ≠ [])
    (hcount : p.count < 1000) (hmax : p.nanoseconds ≤ Int64.maxValue.toInt) :
    ∃ d, p.ReadsAs d 0 ∨ p.ReadsAs d 1 := by
  obtain ⟨-, hshort, -⟩ := h.unit_of_fraction hne
  obtain ⟨n, hn⟩ := h.exists_nanoseconds hne
  have hnonneg := Decimal.exact_nonneg p.whole p.fraction
  have hlt : Decimal.exact p.whole p.fraction < 1000 := by
    have hnext : (p.count : Rat) + 1 ≤ 1000 := by exact_mod_cast hcount
    exact h.exact_lt.trans_le hnext
  have hcases := DurationLiteral.countOf_rounded_cases hshort hnonneg hlt hn
  have htaken : 0 ≤ DurationLiteral.countOf
      (Binary64.rounded (Decimal.exact p.whole p.fraction)) p.unit :=
    DurationLiteral.countAlong_nonneg (Binary64.rounded_nonneg hnonneg) _
  have hle : n ≤ Int64.maxValue.toInt := by
    rw [hn] at hmax
    exact_mod_cast hmax
  obtain ⟨d, hd⟩ := exists_count_eq_of_le htaken (by omega)
  have hvalue := h.value_literal_of_fraction hne hd
  rw [← hd] at hcases htaken
  refine ⟨d, ?_⟩
  rcases hcases with hexact | hless
  · left
    refine ⟨hvalue, htaken, ?_⟩
    rw [hn, hexact, add_zero]
  · right
    refine ⟨hvalue, htaken, ?_⟩
    rw [hn, hless, sub_add_cancel]

theorem WellFormed.exists_readsAs {p : Part} (h : p.WellFormed)
    (hcount : p.fraction ≠ [] → p.count < 1000) (hmax : p.nanoseconds ≤ Int64.maxValue.toInt) :
    ∃ d loss, p.ReadsAs d loss ∧ (loss = 0 ∨ p.fraction ≠ [] ∧ loss = 1) := by
  by_cases hnil : p.fraction = []
  · obtain ⟨d, hd⟩ := h.readsAs_of_whole hnil hmax
    exact ⟨d, 0, hd, Or.inl rfl⟩
  · obtain ⟨d, hd | hd⟩ := h.readsAs_of_fraction hnil (hcount hnil) hmax
    · exact ⟨d, 0, hd, Or.inl rfl⟩
    · exact ⟨d, 1, hd, Or.inr ⟨hnil, rfl⟩⟩

end Part

/-! ## The parts of a text -/

/-- Only the last part can have a fraction, and its number is below a thousand. -/
theorem Shape.exists_last {parts : List Part} (h : Shape parts)
    (hwellFormed : ∀ p ∈ parts, p.WellFormed) :
    ∃ front last, parts = front ++ [last] ∧ (∀ p ∈ front, p.fraction = []) ∧
      last.count < 1000 := by
  have hwhole : ∀ p ∈ parts, p.unit.places = 0 → p.fraction = [] := by
    intro p hp hzero
    have hlength := (hwellFormed p hp).places
    rw [hzero] at hlength
    exact List.length_eq_zero_iff.1 (Nat.le_zero.1 hlength)
  cases h with
  | @small p _ _ hcount => exact ⟨[], p, rfl, nofun, by omega⟩
  | @seconds s _ _ hcount => exact ⟨[], s, rfl, nofun, by omega⟩
  | @minutes m s hm _ _ _ hcount =>
      have hminute := hwhole m (by simp) (by rw [hm]; rfl)
      exact ⟨[m], s, rfl, by simpa using hminute, by omega⟩
  | @hours h m s hh hm _ _ _ hcount =>
      have hhour := hwhole h (by simp) (by rw [hh]; rfl)
      have hminute := hwhole m (by simp) (by rw [hm]; rfl)
      exact ⟨[h, m], s, rfl, by simp [hhour, hminute], by omega⟩

/-- The parts of a text lose at most one nanosecond together. -/
theorem Shape.exists_readsAs {parts : List Part} (h : Shape parts)
    (hwellFormed : ∀ p ∈ parts, p.WellFormed)
    (hmax : ∀ p ∈ parts, p.nanoseconds ≤ Int64.maxValue.toInt) :
    ∃ (value : Part → Duration) (loss : Part → Int),
      (∀ p ∈ parts, p.ReadsAs (value p) (loss p)) ∧
      ((parts.map loss).sum = 0 ∨ (parts.map loss).sum = 1) := by
  obtain ⟨front, last, rfl, hfront, hlast⟩ := h.exists_last hwellFormed
  have hreads : ∀ p ∈ front ++ [last], ∃ d loss, p.ReadsAs d loss ∧
      (loss = 0 ∨ p.fraction ≠ [] ∧ loss = 1) := by
    intro p hp
    refine (hwellFormed p hp).exists_readsAs ?_ (hmax p hp)
    intro hne
    rcases List.mem_append.1 hp with hp | hp
    · exact absurd (hfront p hp) hne
    · rw [List.mem_singleton.1 hp]
      exact hlast
  choose! value loss hvalue hloss using hreads
  refine ⟨value, loss, hvalue, ?_⟩
  -- in front of the last part nothing is lost
  have hzero : (front.map loss).sum = 0 := by
    apply List.sum_eq_zero
    intro n hn
    obtain ⟨p, hp, rfl⟩ := List.mem_map.1 hn
    rcases hloss p (List.mem_append_left _ hp) with hnone | ⟨hne, -⟩
    · exact hnone
    · exact absurd (hfront p hp) hne
  rw [List.map_append, List.sum_append, hzero, zero_add, List.map_singleton, List.sum_singleton]
  rcases hloss last (by simp) with hnone | ⟨-, hone⟩
  · exact Or.inl hnone
  · exact Or.inr hone

/-- The text of a positive duration is an expression, whose value is the duration or one nanosecond
less. -/
theorem exists_source_of_pos {d : Duration} (hd : 0 < d.count) :
    ∃ (e : Expression) (d' : Duration), Spells e.tokens d.sourceText.toList ∧
      (e.meaning checkedArithmetic).result = .ok (.duration d') ∧
      (d'.count = d.count ∨ d'.count = d.count - 1) := by
  have hrange : d.count ≤ Int64.maxValue.toInt := (Checked.inRange_toInt d.nanoseconds).2
  have hshape : Shape (partsOf d.count.natAbs) := shape_partsOf (by omega)
  obtain ⟨value, loss, hreads, hloss⟩ := hshape.exists_readsAs wellFormed_of_mem_partsOf
    fun p hp => nanoseconds_le_maxValue hd.le hp
  obtain ⟨e, hspells, hresult⟩ := exists_source_of_readsAs hd.le hreads
  generalize ((partsOf d.count.natAbs).map loss).sum = lost at *
  obtain ⟨d', hd'⟩ := @exists_count_eq_of_le (d.count - lost) (by omega) (by omega)
  rw [← hd', durationOf_count] at hresult
  exact ⟨e, d', hspells, hresult, by omega⟩

end Duration

/-- The text of a duration with a point in it, which is not negative, is an expression whose value
is the duration or one nanosecond less; in parentheses behind a minus sign it has the opposite
value. -/
theorem fractional_results_reenter {d : Duration} (hd : 0 ≤ d.count)
    (hpoint : '.' ∈ d.text.toList) :
    ∃ d' opposite : Duration, (d'.count = d.count ∨ d'.count = d.count - 1) ∧
      opposite.count = -d'.count ∧
      (evaluate d.sourceText).result = .ok (.duration d') ∧
      (evaluate ("-(" ++ d.sourceText ++ ")")).result = .ok (.duration opposite) := by
  have hpos : 0 < d.count := by
    by_contra hzero
    obtain rfl : d = Duration.zero := Duration.count_inj.1 (le_antisymm (not_lt.1 hzero) hd)
    exact absurd hpoint (by decide)
  obtain ⟨e, d', hspells, hresult, hcases⟩ := Duration.exists_source_of_pos hpos
  obtain ⟨opposite, hopposite⟩ := @Duration.exists_opposite_of_nonneg d' (by omega)
  refine ⟨d', opposite, hcases, hopposite, ?_, ?_⟩
  · rw [(evaluate_of_spells hspells).1, hresult]
    rfl
  · rw [result_negated_group hspells, hresult]
    change (durationOf (-d'.count)).mapError _ = _
    rw [← hopposite, durationOf_count]
    rfl

/-- Three seconds and a hundredth lose a nanosecond: the double below their number is handed down.
-/
theorem fractional_results_reenter_short :
    let written : Duration := ⟨3010000000⟩
    0 ≤ written.count ∧ '.' ∈ written.text.toList ∧ written.sourceText = "3.01s" ∧
      (evaluate "3.01s").result = .ok (.duration ⟨3009999999⟩) ∧
      (evaluate "-(3.01s)").result = .ok (.duration ⟨-3009999999⟩) := by
  intro written
  have htext : written.text.toList = "3.01s".toList := by decide
  have hpoint : '.' ∈ written.text.toList := by
    rw [htext]
    decide
  have hsource : written.sourceText = "3.01s" := by
    refine String.toList_inj.1 ?_
    rw [Duration.sourceText, String.toList_map, htext]
    decide
  have hshort : (evaluate "3.01s").result = .ok (.duration ⟨3009999999⟩) := by decide +kernel
  have hnonneg : 0 ≤ written.count := by decide
  obtain ⟨d', opposite, -, hcount, hresult, hnegated⟩ := fractional_results_reenter hnonneg hpoint
  rw [hsource] at hresult hnegated
  rw [hshort] at hresult
  cases hresult
  obtain rfl : opposite = ⟨-3009999999⟩ := Duration.count_inj.1 hcount
  exact ⟨hnonneg, hpoint, hsource, hshort, hnegated⟩

end DurationCalculator
