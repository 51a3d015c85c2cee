import DurationCalculator.Proofs.Evaluation.Reentry
import DurationCalculator.Proofs.Literal.Scanned

/-!
# Compound durations

Duration literals may be written side by side without anything between them: where one of them ends,
its unit ends, and the next one starts with a digit (`Scan.spells_durations`). No literal is
negative, so no order of the literals leaves the 64-bit range on the way to a sum that lies in it,
nor stays in the range on the way to a sum that does not. The expression is worth the sum of its
literals, in any order (`compound_exact_sum`).
-/

set_option autoImplicit false

namespace DurationCalculator

open Grammar

/-! ## Counts that are not negative -/

namespace Grammar

theorem durationOf_of_le {n : Int} (hn : 0 ≤ n) (hmax : n ≤ Int64.maxValue.toInt) :
    ∃ d : Duration, d.count = n ∧ durationOf n = .ok (.duration d) := by
  obtain ⟨d, rfl⟩ := Duration.exists_count_eq_of_le hn hmax
  exact ⟨d, rfl, durationOf_count d⟩

theorem durationOf_of_lt {n : Int} (h : Int64.maxValue.toInt < n) :
    durationOf n = .error .overflow := by
  have hnone : Duration.ofCount? n = none :=
    Duration.ofCount?_eq_none_iff.2 fun hrange => not_le.2 h hrange.2
  rw [durationOf, hnone]
  rfl

end Grammar

/-! ## Literals side by side -/

/-- The texts are duration literals, each with its duration. -/
def ParseTo (texts : List String) (duration : String → Duration) : Prop :=
  ∀ text ∈ texts, (Literal.duration text).WellFormed ∧
    DurationLiteral.parse text = .ok (duration text)

namespace ParseTo

variable {texts : List String} {duration : String → Duration}

theorem count_nonneg (h : ParseTo texts duration) {text : String} (htext : text ∈ texts) :
    0 ≤ (duration text).count :=
  DurationLiteral.count_nonneg_of_parse (h text htext).1 (h text htext).2

theorem sum_nonneg (h : ParseTo texts duration) :
    0 ≤ (texts.map fun text => (duration text).count).sum := by
  refine List.sum_nonneg fun n hn => ?_
  obtain ⟨text, htext, rfl⟩ := List.mem_map.1 hn
  exact h.count_nonneg htext

/-- The literals side by side are worth their sum. -/
theorem result_join (h : ParseTo texts duration) :
    (evaluate (String.join texts)).result =
      (durationOf (texts.map fun text => (duration text).count).sum).mapError .evaluation := by
  have hspells : Spells ((texts.map Literal.duration).map Token.literal)
      (String.join texts).toList := by
    rw [String.toList_join, List.map_map]
    exact Scan.spells_durations fun text htext => (h text htext).1
  cases texts with
  | nil =>
      -- nothing is worth the empty duration
      have hzero : durationOf 0 = .ok (.duration Duration.zero) := durationOf_count Duration.zero
      exact congrArg (Except.mapError Error.evaluation) hzero.symm
  | cons text texts =>
      rw [List.map_cons, ← Sequence.tokens_compound] at hspells
      have hvalue : ∀ y ∈ text :: texts, (Literal.duration y).value = .ok (.duration (duration y)) ∧
          0 ≤ (duration y).count := by
        intro y hy
        refine ⟨?_, h.count_nonneg hy⟩
        rw [Literal.value, (h y hy).2]
        rfl
      rw [(evaluate_of_spells (e := .operands _) hspells).1]
      exact congrArg _ (result_compound hvalue)

/-- The order does not matter. -/
theorem perm (h : ParseTo texts duration) {others : List String} (hperm : texts.Perm others) :
    ParseTo others duration :=
  fun text htext => h text (hperm.mem_iff.2 htext)

end ParseTo

/-- Duration literals side by side are worth their sum, and overflow exactly when it lies outside
the 64-bit range. So their order does not matter. -/
theorem compound_exact_sum {texts : List String} {duration : String → Duration}
    (h : ParseTo texts duration) :
    let sum := (texts.map fun text => (duration text).count).sum
    (sum ≤ Int64.maxValue.toInt → ∃ d : Duration, d.count = sum ∧
      (evaluate (String.join texts)).result = .ok (.duration d)) ∧
    (Int64.maxValue.toInt < sum →
      (evaluate (String.join texts)).result = .error (.evaluation .overflow)) ∧
    ∀ others, texts.Perm others →
      (evaluate (String.join others)).result = (evaluate (String.join texts)).result := by
  intro sum
  rw [h.result_join]
  refine ⟨?_, ?_, ?_⟩
  · intro hmax
    obtain ⟨d, hd, hresult⟩ := durationOf_of_le h.sum_nonneg hmax
    exact ⟨d, hd, congrArg _ hresult⟩
  · intro hlarge
    exact congrArg _ (durationOf_of_lt hlarge)
  · intro others hperm
    rw [(h.perm hperm).result_join, (hperm.map _).sum_eq]

/-- Minutes in front of a digit and in front of milliseconds, and a unit that comes back. -/
theorem compound_exact_sum_minutes :
    ∃ d : Duration, d.count = 3660002000000 ∧
      (evaluate "30m2ms31m").result = .ok (.duration d) ∧
      (evaluate "2ms31m30m").result = .ok (.duration d) := by
  let duration (text : String) : Duration :=
    match text with
    | "30m" => ⟨1800000000000⟩
    | "31m" => ⟨1860000000000⟩
    | _ => ⟨2000000⟩
  have hthirty : (Literal.duration "30m").WellFormed := ⟨false, ['3', '0'], .minute, rfl, rfl⟩
  have hmore : (Literal.duration "31m").WellFormed := ⟨false, ['3', '1'], .minute, rfl, rfl⟩
  have htwo : (Literal.duration "2ms").WellFormed := ⟨false, ['2'], .millisecond, rfl, rfl⟩
  have hparse : ParseTo ["30m", "2ms", "31m"] duration := by
    simp only [ParseTo, List.forall_mem_cons]
    exact ⟨⟨hthirty, rfl⟩, ⟨htwo, rfl⟩, ⟨hmore, rfl⟩, List.forall_mem_nil _⟩
  have hjoin : String.join ["30m", "2ms", "31m"] = "30m2ms31m" := by decide
  have hother : String.join ["2ms", "31m", "30m"] = "2ms31m30m" := by decide
  obtain ⟨hsum, -, hperm⟩ := compound_exact_sum hparse
  obtain ⟨d, hd, hresult⟩ := hsum (by decide)
  have horder := hperm ["2ms", "31m", "30m"] (by decide)
  rw [hjoin] at hresult horder
  rw [hother, hresult] at horder
  exact ⟨d, hd.trans (by decide), hresult, horder⟩

/-- The largest duration leaves no room for a nanosecond, on either side. -/
example :
    (evaluate "9223372036854775807ns1ns").result = .error (.evaluation .overflow) ∧
      (evaluate "1ns9223372036854775807ns").result = .error (.evaluation .overflow) :=
  ⟨rfl, rfl⟩

end DurationCalculator
