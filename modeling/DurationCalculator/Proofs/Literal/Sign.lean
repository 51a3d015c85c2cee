import DurationCalculator.Proofs.Binary64.Sign
import DurationCalculator.Proofs.Literal.Fraction

/-!
# Signs in front of literals with a separator

The reader of literals with a separator takes any numeral in front of the unit, also with a sign.
A sign does not move the cut in front of the unit (`splitUnit?_cons`), and a minus sign negates
the numeral (`Numeral.parse?_minus`). The opposite number hands the opposite parts down through
the units (`cascadeAlong_neg`): every part is of one sign, so that no sum leaves the 64-bit range
which the sums of the number itself do not leave. So the sign of the literal is the sign of its
duration (`signs_commute`).
-/

set_option autoImplicit false

namespace DurationCalculator

/-! ## Signs of numerals -/

namespace Numeral

/-- The numeral of opposite sign. -/
def opposite : Numeral → Numeral
  | decimal negative significand exponent => decimal (!negative) significand exponent
  | infinity negative => infinity (!negative)
  | notANumber => notANumber

theorem readDecimal?_minus (text : List Char) :
    readDecimal? true text = (readDecimal? false text).map opposite := by
  simp only [readDecimal?]
  split_ifs
  · rfl
  · rw [Option.map_map]
    rfl

theorem readName?_minus (text : List Char) :
    readName? true text = (readName? false text).map opposite := by
  simp only [readName?]
  split_ifs <;> rfl

section Parse

variable {text : List Char} (hsign : Decimal.splitSign text = (false, text))

include hsign

theorem parse?_unsigned : parse? text = (readDecimal? false text).or (readName? false text) := by
  rw [parse?, hsign]

/-- A plus sign changes nothing. -/
theorem parse?_plus : parse? ('+' :: text) = parse? text := (parse?_unsigned hsign).symm

/-- A minus sign in front of a numeral names the opposite number. -/
theorem parse?_minus : parse? ('-' :: text) = (parse? text).map opposite := by
  have hminus : parse? ('-' :: text) = (readDecimal? true text).or (readName? true text) := rfl
  rw [hminus, readDecimal?_minus, readName?_minus, parse?_unsigned hsign]
  cases readDecimal? false text <;> rfl

/-- Without a sign a decimal numeral is not negative. -/
theorem negative_of_parse? {negative : Bool} {significand : Nat} {exponent : Int}
    (h : parse? text = some (decimal negative significand exponent)) : negative = false := by
  rw [parse?_unsigned hsign, Option.or_eq_some_iff] at h
  rcases h with h | ⟨-, h⟩
  · rw [readDecimal?] at h
    dsimp only at h
    split_ifs at h
    obtain ⟨e, -, hdecimal⟩ := Option.map_eq_some_iff.1 h
    cases hdecimal
    rfl
  · rw [readName?] at h
    split_ifs at h <;> cases h

end Parse

/-- The opposite numeral names the opposite double. -/
theorem toBinary64_opposite (numeral : Numeral) :
    numeral.opposite.toBinary64 = numeral.toBinary64.neg := by
  cases numeral with
  | decimal negative significand exponent =>
      have hvalue : exactValue (!negative) significand exponent =
          -exactValue negative significand exponent := by
        cases negative <;> simp [exactValue, Decimal.signed]
      rw [opposite, toBinary64, hvalue, Binary64.nearest_neg]
      rfl
  | infinity negative => rfl
  | notANumber => rfl

theorem exactValue_nonneg (significand : Nat) (exponent : Int) :
    0 ≤ exactValue false significand exponent := by
  have hten : (0 : Rat) ≤ 10 := by norm_num
  have hsigned : 0 ≤ Decimal.signed false significand := Int.natCast_nonneg significand
  exact mul_nonneg (by exact_mod_cast hsigned) (zpow_nonneg hten exponent)

end Numeral

namespace DurationLiteral

open Binary64

/-! ## Opposite parts -/

/-- What is handed down after a unit has taken its part. -/
theorem cascadeAlong_cons_eq_some_iff {value : Binary64} {total d : Duration} {unit : TimeUnit}
    {below : List TimeUnit} :
    cascadeAlong value total (unit :: below) = some d ↔
      ∃ count part sum, value.trunc.toInt64? = some count ∧ unit.length.mul? count = some part ∧
        total.add? part = some sum ∧
        (match unit.smaller? with
          | none => some sum
          | some (_, ratio) => cascadeAlong ((value.sub value.trunc).scale ratio) sum below) =
            some d := by
  rw [cascadeAlong]
  simp only [Option.bind_eq_bind, Option.bind_eq_some_iff]
  constructor
  · rintro ⟨count, hcount, part, hpart, sum, hsum, hrest⟩
    exact ⟨count, part, sum, hcount, hpart, hsum, hrest⟩
  · rintro ⟨count, part, sum, hcount, hpart, hsum, hrest⟩
    exact ⟨count, hcount, part, hpart, sum, hsum, hrest⟩

/-- The opposite of what a unit takes can be taken, and added up. -/
theorem exists_opposite_taken {unit : TimeUnit} {count : Int64} {total opposite part sum : Duration}
    (hcount : 0 ≤ count.toInt) (ht : 0 ≤ total.count) (hopposite : opposite.count = -total.count)
    (hpart : unit.length.mul? count = some part) (hsum : total.add? part = some sum) :
    0 ≤ sum.count ∧ ∃ count' part' sum', count'.toInt = -count.toInt ∧
      unit.length.mul? count' = some part' ∧ opposite.add? part' = some sum' ∧
        sum'.count = -sum.count := by
  have hpartCount : part.count = unit.length.count * count.toInt :=
    Duration.ofCount?_eq_some_iff.1 hpart
  have hsumCount : sum.count = total.count + part.count := Duration.ofCount?_eq_some_iff.1 hsum
  have hpartNonneg : 0 ≤ part.count := by
    rw [hpartCount]
    exact mul_nonneg (zero_le_one.trans unit.one_le_count_length) hcount
  have hsumNonneg : 0 ≤ sum.count := by omega
  obtain ⟨count', hcount'⟩ :=
    Checked.exists_toInt_eq (Checked.inRange_neg (Checked.inRange_toInt count) hcount)
  obtain ⟨part', hpart'⟩ := Duration.exists_opposite_of_nonneg hpartNonneg
  obtain ⟨sum', hsum'⟩ := Duration.exists_opposite_of_nonneg hsumNonneg
  refine ⟨hsumNonneg, count', part', sum', hcount', ?_, ?_, hsum'⟩
  · rw [Duration.mul?, Duration.ofCount?_eq_some_iff, hpart', hcount', hpartCount, mul_neg]
  · rw [Duration.add?, Duration.ofCount?_eq_some_iff]
    omega

/-- The opposite number hands down the opposite parts. -/
theorem cascadeAlong_neg {v : Rat} (hv : Representable v) (h0 : 0 ≤ v) {total opposite d : Duration}
    (ht : 0 ≤ total.count) (hopposite : opposite.count = -total.count) {units : List TimeUnit}
    (h : cascadeAlong (finite v) total units = some d) :
    ∃ d', d'.count = -d.count ∧ cascadeAlong (finite v).neg opposite units = some d' := by
  induction units generalizing v total opposite with
  | nil =>
      obtain rfl : total = d := Option.some.inj h
      exact ⟨opposite, hopposite, rfl⟩
  | cons unit below ih =>
      obtain ⟨count, part, sum, hwhole, hpart, hsum, hrest⟩ := cascadeAlong_cons_eq_some_iff.1 h
      have hcount : 0 ≤ count.toInt := by
        rw [trunc_finite h0, toInt64?_finite_intCast] at hwhole
        rw [Checked.ofInt?_eq_some_iff.1 hwhole]
        exact Rat.le_floor_iff.2 h0
      obtain ⟨hsumNonneg, count', part', sum', hcount', hpart', hsum', hsumCount⟩ :=
        exists_opposite_taken hcount ht hopposite hpart hsum
      have hwhole' : (finite v).neg.trunc.toInt64? = some count' := by
        rw [trunc_finite h0] at hwhole
        rw [trunc_neg, trunc_finite h0]
        exact toInt64?_neg_intCast hwhole hcount'
      cases hsmaller : unit.smaller? with
      | none =>
          rw [hsmaller] at hrest
          obtain rfl : sum = d := Option.some.inj hrest
          refine ⟨sum', hsumCount, cascadeAlong_cons_eq_some_iff.2 ?_⟩
          exact ⟨count', part', sum', hwhole', hpart', hsum', by rw [hsmaller]⟩
      | some smaller =>
          obtain ⟨next, ratio⟩ := smaller
          have hdown := scale_sub_finite hv h0 (TimeUnit.ratio_of_smaller? hsmaller)
          rw [hsmaller, trunc_finite h0] at hrest
          dsimp only at hrest
          rw [hdown] at hrest
          obtain ⟨d', hd', hrest'⟩ := ih (representable_handedDown v ratio)
            (handedDown_nonneg v ratio) hsumNonneg hsumCount hrest
          refine ⟨d', hd', cascadeAlong_cons_eq_some_iff.2 ?_⟩
          refine ⟨count', part', sum', hwhole', hpart', hsum', ?_⟩
          rw [hsmaller]
          dsimp only
          rw [trunc_neg, sub_neg, scale_neg, trunc_finite h0, hdown, hrest']

/-- A number that is not negative has no negative duration, and the opposite number has the opposite
duration. -/
theorem cascade?_nearest_neg {q : Rat} (hq : 0 ≤ q) {unit : TimeUnit} {d : Duration}
    (h : cascade? (nearest q) unit = some d) :
    0 ≤ d.count ∧ ∃ d', d'.count = -d.count ∧ cascade? (nearest q).neg unit = some d' := by
  have hzero : Duration.zero.count = 0 := rfl
  constructor
  · rw [cascade?_nearest hq, Duration.ofCount?_eq_some_iff] at h
    rw [h]
    exact countAlong_nonneg (rounded_nonneg hq) _
  · by_cases hlarge : rounded q < (2 : Rat) ^ (1024 : Int)
    · rw [nearest_of_lt hq hlarge] at h ⊢
      exact cascadeAlong_neg (representable_rounded hq) (rounded_nonneg hq) hzero.ge
        (by rw [hzero, neg_zero]) h
    · rw [nearest_of_le hq (not_lt.1 hlarge)] at h
      cases h

/-! ## Signs of literals -/

section SplitUnit

variable {text number suffix : List Char} (h : splitUnit? text = some (number, suffix))

include h

/-- The cut loses nothing. -/
theorem append_of_splitUnit? : text = number ++ suffix := by
  rw [← List.reverse_inj]
  rw [splitUnit?] at h
  split at h
  next hreverse =>
    cases h
    exact hreverse
  next last hreverse =>
    split_ifs at h
    cases h
    exact hreverse
  next last before rest hreverse =>
    rw [hreverse]
    split_ifs at h
    all_goals
      cases h
      simp

/-- What stands in front of the text does not move the cut, unless the text is all unit. -/
theorem splitUnit?_cons (hne : number ≠ []) (c : Char) :
    splitUnit? (c :: text) = some (c :: number, suffix) := by
  rw [splitUnit?, List.reverse_cons]
  rw [splitUnit?] at h
  split at h
  next =>
    cases h
    exact absurd rfl hne
  next =>
    split_ifs at h
    cases h
    exact absurd rfl hne
  next last before rest hreverse =>
    rw [hreverse]
    simp only [List.cons_append]
    split_ifs at h ⊢
    all_goals
      cases h
      simp

end SplitUnit

/-- A literal with a separator is the numeral in front of its unit, handed down. -/
theorem readFractional_eq_ok_iff {text : List Char} {d : Duration} :
    readFractional text = .ok d ↔
      ∃ number numeral unit, splitUnit? (text.map withPoint) = some (number, TimeUnit.suffix unit) ∧
        Numeral.parse? number = some numeral ∧ unit ≠ .nanosecond ∧
          cascade? numeral.toBinary64 unit = some d := by
  constructor
  · intro h
    unfold readFractional at h
    split at h
    next => cases h
    next number suffix hsplit =>
      split at h
      next => cases h
      next numeral hparse =>
        split at h
        next => cases h
        next => cases h
        next unit hunit hname =>
          split at h
          next => cases h
          next found hfound =>
            cases h
            obtain rfl := TimeUnit.ofSuffix?_eq_some_iff.1 hname
            exact ⟨number, numeral, unit, hsplit, hparse, hunit, hfound⟩
  · rintro ⟨number, numeral, unit, hsplit, hparse, hunit, hfound⟩
    have hmap : text.map (fun c => if c = ',' then '.' else c) = text.map withPoint := rfl
    rw [readFractional, hmap, hsplit]
    dsimp only
    rw [hparse]
    dsimp only
    rw [TimeUnit.ofSuffix?_suffix]
    cases unit with
    | nanosecond => exact absurd rfl hunit
    | _ =>
        dsimp only
        rw [hfound]

/-- In front of a text without a sign, a sign is that of the number and of the duration. -/
theorem readFractional_signed {text : List Char} {d : Duration}
    (hsign : ∀ c ∈ text.head?, c ≠ '+' ∧ c ≠ '-') (h : readFractional text = .ok d) :
    0 ≤ d.count ∧ readFractional ('+' :: text) = .ok d ∧
      ∃ opposite : Duration, opposite.count = -d.count ∧
        readFractional ('-' :: text) = .ok opposite := by
  obtain ⟨number, numeral, unit, hsplit, hparse, hunit, hfound⟩ := readFractional_eq_ok_iff.1 h
  have hne : number ≠ [] := by
    rintro rfl
    cases hparse
  -- the number starts like the text, and no character becomes a sign
  have hunsigned : Decimal.splitSign number = (false, number) := by
    refine Decimal.splitSign_of_head? ?_
    intro c hc
    have hhead : (text.map withPoint).head? = some c := by
      rw [append_of_splitUnit? hsplit, List.head?_append_of_ne_nil _ hne]
      exact hc
    rw [List.head?_map] at hhead
    obtain ⟨first, hfirst, rfl⟩ := Option.map_eq_some_iff.1 hhead
    obtain ⟨hplus, hminus⟩ := hsign first hfirst
    exact ⟨fun heq => hplus ((withPoint_eq_iff rfl).1 heq),
      fun heq => hminus ((withPoint_eq_iff rfl).1 heq)⟩
  obtain ⟨hnonneg, opposite, hopposite, hfound'⟩ : 0 ≤ d.count ∧ ∃ opposite : Duration,
      opposite.count = -d.count ∧ cascade? numeral.opposite.toBinary64 unit = some opposite := by
    rw [Numeral.toBinary64_opposite]
    cases numeral with
    | decimal negative significand exponent =>
        obtain rfl := Numeral.negative_of_parse? hunsigned hparse
        exact cascade?_nearest_neg (Numeral.exactValue_nonneg significand exponent) hfound
    | infinity negative => cases hfound
    | notANumber => cases hfound
  refine ⟨hnonneg, readFractional_eq_ok_iff.2 ?_, opposite, hopposite,
    readFractional_eq_ok_iff.2 ?_⟩
  · refine ⟨'+' :: number, numeral, unit, splitUnit?_cons hsplit hne '+', ?_, hunit, hfound⟩
    rw [Numeral.parse?_plus hunsigned, hparse]
  · refine ⟨'-' :: number, numeral.opposite, unit, splitUnit?_cons hsplit hne '-', ?_, hunit,
      hfound'⟩
    rw [Numeral.parse?_minus hunsigned, hparse]
    rfl

theorem read_of_separator {text : List Char} (h : ∃ c ∈ text, isSeparator c) :
    read text = readFractional text := by
  rw [read, if_pos (List.any_eq_true.2 h)]

/-- A text with a separator and without a sign that is the literal of a duration is that of no
negative one. With a plus sign in front it is a literal of the same duration, and with a minus sign
one of the opposite duration. -/
theorem signs_commute {text : String} {d : Duration}
    (hseparator : ∃ c ∈ text.toList, isSeparator c)
    (hsign : ∀ c ∈ text.toList.head?, c ≠ '+' ∧ c ≠ '-') (hparse : parse text = .ok d) :
    0 ≤ d.count ∧ parse ("+" ++ text) = .ok d ∧
      ∃ opposite : Duration, opposite.count = -d.count ∧
        parse ("-" ++ text) = .ok opposite := by
  have hread : ∀ c, read (c :: text.toList) = readFractional (c :: text.toList) := by
    intro c
    obtain ⟨separator, hmem, hseparator⟩ := hseparator
    exact read_of_separator ⟨separator, List.mem_cons_of_mem c hmem, hseparator⟩
  rw [parse_eq_ok_iff, read_of_separator hseparator] at hparse
  obtain ⟨hnonneg, hplus, opposite, hopposite, hminus⟩ := readFractional_signed hsign hparse
  refine ⟨hnonneg, parse_eq_ok_iff.2 ?_, opposite, hopposite, parse_eq_ok_iff.2 ?_⟩
  · rw [String.toList_append]
    exact (hread '+').trans hplus
  · rw [String.toList_append]
    exact (hread '-').trans hminus

/-- An exponent, with nothing in front of the separator. -/
theorem signs_commute_with_exponent :
    let text := ",015e5s"
    let d : Duration := ⟨1500000000000⟩
    (∃ c ∈ text.toList, isSeparator c) ∧ (∀ c ∈ text.toList.head?, c ≠ '+' ∧ c ≠ '-') ∧
      parse text = .ok d ∧ parse ("+" ++ text) = .ok d ∧
        ∃ opposite : Duration, opposite.count = -1500000000000 ∧
          parse ("-" ++ text) = .ok opposite := by
  intro text d
  have hseparator : ∃ c ∈ text.toList, isSeparator c := ⟨',', by decide, rfl⟩
  have hsign : ∀ c ∈ text.toList.head?, c ≠ '+' ∧ c ≠ '-' := by
    intro c hc
    obtain rfl : ',' = c := by simpa [text] using hc
    decide
  have hparse : parse text = .ok d := by decide +kernel
  obtain ⟨-, hplus, hminus⟩ := signs_commute hseparator hsign hparse
  exact ⟨hseparator, hsign, hparse, hplus, hminus⟩

end DurationLiteral

end DurationCalculator
