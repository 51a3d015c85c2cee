import DurationCalculator.Proofs.Duration.Canonical
import DurationCalculator.Proofs.Evaluation.Source
import DurationCalculator.Proofs.Literal.Whole

/-!
# Results that are fed back

Up to the micro sign, which expressions write as the letter `u`, the canonical text of a duration
that is not negative is an expression: its parts are duration literals side by side
(`spells_parts`). The expression is short of the duration by what its literals are short of their
parts (`exists_source_of_readsAs`). Where no part has a fraction, each literal is worth its part, so
the expression has the duration that was written; in parentheses behind a minus sign it has the
negated one. An integer is fed back as it is written, but for the least one, whose digits alone are
out of range (`whole_results_reenter`).
-/

set_option autoImplicit false

namespace DurationCalculator

open Grammar

namespace Duration

/-! ## Canonical texts as expressions -/

/-- The character that stands for a character of a canonical text in expressions. -/
def plainLetter (c : Char) : Char := if c = 'µ' then 'u' else c

/-- The canonical text in the characters of expressions. -/
def sourceText (d : Duration) : String := d.text.map plainLetter

namespace Part

/-- The literal that a part is in an expression. -/
def literal (p : Part) : Literal :=
  .duration (String.ofList (p.whole ++ pointed p.fraction ++ p.unit.suffix))

theorem map_plainLetter_symbol (unit : TimeUnit) :
    unit.symbol.map plainLetter = unit.suffix := by
  cases unit <;> decide

theorem WellFormed.map_chars {p : Part} (h : p.WellFormed) :
    p.chars.map plainLetter = p.literal.text.toList := by
  -- an amount has no micro sign
  have hamount : (p.whole ++ pointed p.fraction).map plainLetter =
      p.whole ++ pointed p.fraction := by
    refine (List.map_congr_left fun c hc => if_neg ?_).trans (List.map_id _)
    rintro rfl
    exact absurd (h.isAmountChar 'µ' hc) (by decide)
  rw [chars, List.map_append, hamount, map_plainLetter_symbol, literal, Literal.text,
    String.toList_ofList]

theorem WellFormed.isNumeral_whole {p : Part} (h : p.WellFormed) : Decimal.isNumeral p.whole :=
  isNumeral_iff.2 ⟨h.whole.ne_nil, h.whole.allDigits⟩

theorem WellFormed.literal {p : Part} (h : p.WellFormed) : p.literal.WellFormed := by
  have hwhole := h.isNumeral_whole
  by_cases hnil : p.fraction = []
  · refine ⟨false, p.whole, p.unit, hwhole, ?_⟩
    simp [pointed, hnil]
  · refine ⟨true, p.whole ++ pointed p.fraction, p.unit, ?_, String.toList_ofList⟩
    refine ⟨p.whole, '.', p.fraction, hwhole, rfl, h.fraction, ?_⟩
    rw [pointed, if_neg hnil]

end Part

/-- The parts of a text are literals side by side. -/
theorem spells_parts {parts : List Part} (h : ∀ p ∈ parts, p.WellFormed) :
    Spells ((parts.map Part.literal).map Token.literal) ((charsOf parts).map plainLetter) := by
  have hchars : (charsOf parts).map plainLetter = parts.flatMap fun p => p.literal.text.toList := by
    rw [charsOf, List.map_flatMap]
    exact List.flatMap_congr fun p hp => (h p hp).map_chars
  rw [hchars, List.map_map]
  exact Scan.spells_durations fun p hp => (h p hp).literal

/-- The canonical text of a duration that is not negative is an expression, and its value is the sum
of its parts. -/
theorem exists_source {d : Duration} (hd : 0 ≤ d.count) {value : Part → Duration}
    (h : ∀ p ∈ partsOf d.count.natAbs, p.literal.value = .ok (.duration (value p)) ∧
      0 ≤ (value p).count) :
    ∃ e : Expression, Spells e.tokens d.sourceText.toList ∧
      (e.meaning checkedArithmetic).result =
        durationOf ((partsOf d.count.natAbs).map fun p => (value p).count).sum := by
  have hchars : d.sourceText.toList = (charsOf (partsOf d.count.natAbs)).map plainLetter := by
    rw [sourceText, String.toList_map, toList_text_of_nonneg hd]
  have hspells := spells_parts fun p => wellFormed_of_mem_partsOf (n := d.count.natAbs) p
  obtain ⟨p, parts, hparts⟩ := List.exists_cons_of_ne_nil (partsOf_ne_nil d.count.natAbs)
  rw [hparts] at h hchars hspells ⊢
  refine ⟨.operands (.compound p.literal (parts.map Part.literal)), ?_, result_compound h⟩
  rw [Expression.tokens, Sequence.tokens_compound, hchars]
  exact hspells

/-! ## Parts as literals -/

/-- Up to the largest, every count that is not negative is that of a duration. -/
theorem exists_count_eq_of_le {n : Int} (hn : 0 ≤ n) (hmax : n ≤ Int64.maxValue.toInt) :
    ∃ d : Duration, d.count = n := by
  have hmin : Int64.minValue.toInt ≤ 0 := by decide
  exact exists_count_eq ⟨hmin.trans hn, hmax⟩

theorem worth_partsOf_natAbs {d : Duration} (hd : 0 ≤ d.count) :
    worth (partsOf d.count.natAbs) = d.count := by
  have habs : (d.count.natAbs : Int) = d.count := Int.natAbs_of_nonneg hd
  rw [worth_partsOf, ← Int.cast_natCast, habs]

theorem Part.nanoseconds_nonneg (p : Part) : 0 ≤ p.nanoseconds := by
  have hlength : (0 : Rat) ≤ p.unit.length.count := by
    exact_mod_cast zero_le_one.trans p.unit.one_le_count_length
  exact mul_nonneg (Decimal.exact_nonneg _ _) hlength

/-- No part is worth more than the largest duration. -/
theorem nanoseconds_le_maxValue {d : Duration} (hd : 0 ≤ d.count) {p : Part}
    (hp : p ∈ partsOf d.count.natAbs) : p.nanoseconds ≤ Int64.maxValue.toInt := by
  have hle : p.nanoseconds ≤ worth (partsOf d.count.natAbs) := by
    refine List.single_le_sum ?_ _ (List.mem_map_of_mem hp)
    intro q hq
    obtain ⟨other, -, rfl⟩ := List.mem_map.1 hq
    exact other.nanoseconds_nonneg
  obtain ⟨-, hrange⟩ := Checked.inRange_toInt d.nanoseconds
  rw [worth_partsOf_natAbs hd] at hle
  exact hle.trans (by exact_mod_cast hrange)

/-- Read as a literal, the part is a duration that is short of the part by `loss` nanoseconds. -/
def Part.ReadsAs (p : Part) (d : Duration) (loss : Int) : Prop :=
  p.literal.value = .ok (.duration d) ∧ 0 ≤ d.count ∧ p.nanoseconds = (d.count + loss : Int)

/-- The durations that are read are short of the text by their losses. -/
theorem worth_of_readsAs {parts : List Part} {value : Part → Duration} {loss : Part → Int}
    (h : ∀ p ∈ parts, p.ReadsAs (value p) (loss p)) :
    worth parts =
      ((parts.map fun p => (value p).count).sum + (parts.map loss).sum : Int) := by
  induction parts with
  | nil => rfl
  | cons p parts ih =>
      obtain ⟨⟨-, -, hp⟩, hparts⟩ := List.forall_mem_cons.1 h
      have hworth := ih hparts
      rw [worth] at hworth ⊢
      simp only [List.map_cons, List.sum_cons, hworth, hp]
      push_cast
      ring

/-- The text of a duration is an expression that is short of the duration by the losses of its
parts. -/
theorem exists_source_of_readsAs {d : Duration} (hd : 0 ≤ d.count) {value : Part → Duration}
    {loss : Part → Int} (h : ∀ p ∈ partsOf d.count.natAbs, p.ReadsAs (value p) (loss p)) :
    ∃ e : Expression, Spells e.tokens d.sourceText.toList ∧
      (e.meaning checkedArithmetic).result =
        durationOf (d.count - ((partsOf d.count.natAbs).map loss).sum) := by
  obtain ⟨e, hspells, hresult⟩ := exists_source hd fun p hp => ⟨(h p hp).1, (h p hp).2.1⟩
  have hworth := worth_of_readsAs h
  rw [worth_partsOf_natAbs hd] at hworth
  refine ⟨e, hspells, ?_⟩
  rw [hresult, eq_sub_of_add_eq (Int.cast_inj.1 hworth).symm]

/-! ## Whole parts -/

theorem fraction_of_mem_charsOf {parts : List Part} (h : '.' ∉ charsOf parts) :
    ∀ p ∈ parts, p.fraction = [] := by
  intro p hp
  by_contra hnil
  apply h
  refine List.mem_flatMap.2 ⟨p, hp, ?_⟩
  simp [Part.chars, pointed, hnil]

/-- The nanoseconds of the whole units of a part. -/
def Part.wholeNanoseconds (p : Part) : Int := p.unit.length.count * p.count

theorem Part.nanoseconds_of_whole {p : Part} (h : p.fraction = []) :
    p.nanoseconds = p.wholeNanoseconds := by
  rw [nanoseconds, h, Decimal.exact_nil, wholeNanoseconds, count]
  push_cast
  ring

/-- A part without a fraction is the literal of its duration. -/
theorem Part.WellFormed.value_literal {p : Part} (h : p.WellFormed) (hnil : p.fraction = [])
    {d : Duration} (hd : d.count = p.wholeNanoseconds) :
    p.literal.value = .ok (.duration d) := by
  have hread := DurationLiteral.read_whole h.isNumeral_whole p.unit
  have hcount : ofCount? (p.unit.length.count * (Decimal.value p.whole : Int)) = some d :=
    ofCount?_eq_some_iff.2 hd
  rw [hcount] at hread
  rw [Part.literal, hnil, pointed, if_pos rfl, List.append_nil, Literal.value,
    DurationLiteral.parse, String.toList_ofList, hread]
  rfl

/-- A part without a fraction loses nothing. -/
theorem Part.WellFormed.readsAs_of_whole {p : Part} (h : p.WellFormed) (hnil : p.fraction = [])
    (hmax : p.nanoseconds ≤ Int64.maxValue.toInt) : ∃ d, p.ReadsAs d 0 := by
  have hnonneg : 0 ≤ p.wholeNanoseconds :=
    mul_nonneg (zero_le_one.trans p.unit.one_le_count_length) (Int.natCast_nonneg _)
  rw [nanoseconds_of_whole hnil] at hmax
  obtain ⟨d, hd⟩ := exists_count_eq_of_le hnonneg (Int.cast_le.1 hmax)
  refine ⟨d, h.value_literal hnil hd, ?_, ?_⟩
  · rw [hd]
    exact hnonneg
  · rw [hd, add_zero, nanoseconds_of_whole hnil]

theorem exists_opposite {d : Duration} (h : 0 < d.count) :
    ∃ opposite : Duration, opposite.count = -d.count := exists_opposite_of_nonneg h.le

/-- A text without a point is an expression that has the duration that was written. -/
theorem exists_source_of_whole {d : Duration} (hd : 0 ≤ d.count) (hpoint : '.' ∉ d.text.toList) :
    ∃ e : Expression, Spells e.tokens d.sourceText.toList ∧
      (e.meaning checkedArithmetic).result = .ok (.duration d) := by
  rw [toList_text_of_nonneg hd] at hpoint
  have hwhole := fraction_of_mem_charsOf hpoint
  have hreads : ∀ p ∈ partsOf d.count.natAbs, ∃ part, p.ReadsAs part 0 := by
    intro p hp
    exact (wellFormed_of_mem_partsOf p hp).readsAs_of_whole (hwhole p hp)
      (nanoseconds_le_maxValue hd hp)
  choose! part hpart using hreads
  obtain ⟨e, hspells, hresult⟩ := exists_source_of_readsAs hd hpart
  refine ⟨e, hspells, ?_⟩
  rw [hresult, List.sum_map_zero, sub_zero, durationOf_count]

end Duration

/-! ## Integers -/

theorem isNumeral_digits (m : Nat) :
    Decimal.isNumeral (String.ofList (Decimal.digits m)).toList := by
  rw [String.toList_ofList]
  exact isNumeral_iff.2 ⟨Decimal.digits_ne_nil m, fun c => Decimal.isDigit_of_mem_digits⟩

/-- Digits are a literal of the integer that they write. -/
theorem value_integer_digits {n : Int64} {m : Nat} (h : n.toInt = m) :
    (Literal.integer (String.ofList (Decimal.digits m))).value = .ok (.integer n) := by
  rw [Literal.value, IntegerLiteral.parse_integer_digits (isNumeral_digits m),
    String.toList_ofList, Decimal.value_digits, Checked.ofInt?_eq_some_iff.2 h]
  rfl

/-- An integer literal has its value, alone and behind a minus sign. -/
theorem result_integer {text : String} (h : Decimal.isNumeral text.toList) :
    (evaluate text).result = (Literal.integer text).value.mapError .evaluation ∧
      (evaluate ("-" ++ text)).result =
        ((Literal.integer text).value.bind Value.negate).mapError .evaluation := by
  have hspells : Spells [.literal (.integer text)] text.toList := by
    have hword : Spells [.literal (.integer text)] (text.toList ++ []) :=
      .token h (fun _ _ _ _ hrest => by cases hrest) .done
    rwa [List.append_nil] at hword
  let alone : Expression := .operands (.first (.mk none (.literal (.integer text))))
  let negated : Expression := .operands (.first (.mk (some .minus) (.literal (.integer text))))
  have halone : Spells alone.tokens text.toList := hspells
  have hnegated : Spells negated.tokens ("-" ++ text).toList := by
    have hminus : Spells negated.tokens ('-' :: text.toList) := Scan.spells_symbol rfl hspells
    simpa using hminus
  rw [(evaluate_of_spells halone).1, (evaluate_of_spells hnegated).1]
  constructor
  · change (((Meaning.ofResult (Literal.integer text).value).bind fun value =>
      .ofResult (.ok value)).result).mapError _ = _
    rw [Meaning.bind, Meaning.ofResult]
    cases (Literal.integer text).value <;> rfl
  · change (((Meaning.ofResult (Literal.integer text).value).bind fun value =>
      .ofResult value.negate).result).mapError _ = _
    rw [Meaning.bind, Meaning.ofResult]
    cases (Literal.integer text).value <;> rfl

theorem text_integer_of_nonneg {n : Int64} (h : 0 ≤ n.toInt) :
    (Value.integer n).text = String.ofList (Decimal.digits n.toInt.natAbs) := by
  rw [Value.text, Value.chars, Decimal.ofInt, if_neg (by omega)]

theorem text_integer_of_neg {n : Int64} (h : n.toInt < 0) :
    (Value.integer n).text = "-" ++ String.ofList (Decimal.digits n.toInt.natAbs) := by
  rw [Value.text, Value.chars, Decimal.ofInt, if_pos h]
  exact String.toList_inj.1 (by simp)

/-- Only the size of the least integer is no integer itself. -/
theorem exists_size {n : Int64} (hn : n ≠ Int64.minValue) :
    ∃ size : Int64, size.toInt = n.toInt.natAbs := by
  have hlimits : Int64.minValue.toInt = -Int64.maxValue.toInt - 1 := by decide
  have hmin : n.toInt ≠ Int64.minValue.toInt := fun h => hn (Int64.toInt_inj.1 h)
  obtain ⟨hlower, hupper⟩ := Checked.inRange_toInt n
  exact ⟨Int64.ofIntLE n.toInt.natAbs (by omega) (by omega), Int64.toInt_ofIntLE⟩

/-- An integer other than the least one is the value of its text. -/
theorem result_text_integer {n : Int64} (hn : n ≠ Int64.minValue) :
    (evaluate (Value.integer n).text).result = .ok (.integer n) := by
  obtain ⟨size, hsize⟩ := exists_size hn
  obtain ⟨halone, hnegated⟩ := result_integer (isNumeral_digits n.toInt.natAbs)
  rw [value_integer_digits hsize] at halone hnegated
  by_cases hneg : n.toInt < 0
  · have hopposite : Checked.neg? size = some n := Checked.ofInt?_eq_some_iff.2 (by omega)
    rw [text_integer_of_neg hneg, hnegated]
    change (Value.orOverflow ((Checked.neg? size).map .integer)).mapError _ = _
    rw [hopposite]
    rfl
  · obtain rfl : size = n := Int64.toInt_inj.1 (by omega)
    rw [text_integer_of_nonneg (by omega), halone]
    rfl

/-- A duration that is not negative and whose canonical text has no point is the value of that text,
and its negation that of the text in parentheses behind a minus sign. An integer is the value of its
text, but the text of the least one is refused. -/
theorem whole_results_reenter :
    (∀ d : Duration, 0 ≤ d.count → '.' ∉ d.text.toList →
      (evaluate d.sourceText).result = .ok (.duration d) ∧
      (0 < d.count → ∃ opposite : Duration, opposite.count = -d.count ∧
        (evaluate ("-(" ++ d.sourceText ++ ")")).result = .ok (.duration opposite))) ∧
    (∀ n : Int64, n ≠ Int64.minValue →
      (evaluate (Value.integer n).text).result = .ok (.integer n)) ∧
    (evaluate (Value.integer Int64.minValue).text).result =
      .error (.evaluation (.literal ⟨.invalidInteger, "9223372036854775808"⟩)) := by
  refine ⟨?_, fun n hn => result_text_integer hn, rfl⟩
  intro d hd hpoint
  obtain ⟨e, hspells, hresult⟩ := Duration.exists_source_of_whole hd hpoint
  rw [(evaluate_of_spells hspells).1, result_negated_group hspells, hresult]
  refine ⟨rfl, fun hpos => ?_⟩
  obtain ⟨opposite, hopposite⟩ := Duration.exists_opposite hpos
  refine ⟨opposite, hopposite, ?_⟩
  change (durationOf (-d.count)).mapError _ = _
  rw [← hopposite, durationOf_count]
  rfl

/-- The longest duration in whole seconds. -/
theorem whole_results_reenter_longest :
    let longest : Duration := ⟨9223372036000000000⟩
    0 < longest.count ∧ '.' ∉ longest.text.toList ∧ -7 ≠ Int64.minValue ∧
      longest.sourceText = "2562047h47m16s" ∧
      (evaluate "2562047h47m16s").result = .ok (.duration longest) ∧
      (evaluate "-(2562047h47m16s)").result = .ok (.duration ⟨-9223372036000000000⟩) ∧
      (evaluate (Value.integer (-7)).text).result = .ok (.integer (-7)) := by
  intro longest
  have hpos : 0 < longest.count := by decide
  have htext : longest.text.toList = "2562047h47m16s".toList := by decide
  have hpoint : '.' ∉ longest.text.toList := by
    rw [htext]
    decide
  have hsource : longest.sourceText = "2562047h47m16s" := by
    refine String.toList_inj.1 ?_
    rw [Duration.sourceText, String.toList_map, htext]
    decide
  obtain ⟨hduration, hinteger, -⟩ := whole_results_reenter
  obtain ⟨hresult, hopposite⟩ := hduration longest hpos.le hpoint
  obtain ⟨opposite, hcount, hnegated⟩ := hopposite hpos
  obtain rfl : opposite = ⟨-9223372036000000000⟩ := Duration.count_inj.1 hcount
  rw [hsource] at hresult hnegated
  exact ⟨hpos, hpoint, by decide, hsource, hresult, hnegated, hinteger (-7) (by decide)⟩

end DurationCalculator
