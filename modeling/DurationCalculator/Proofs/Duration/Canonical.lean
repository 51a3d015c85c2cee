import DurationCalculator.Duration.Text
import DurationCalculator.Proofs.Duration.Form

/-!
# The text of a duration is canonical

The text of a duration is the canonical text of its count, and every canonical text whose worth lies
in the 64-bit range is the text of a duration; so texts and durations correspond one to one
(`canonical_text_bijective`).

Between the two stand the parts of a number (`partsOf`): they are well-formed, are worth the number
and have its text, and every sequence of parts that a canonical text may have is that of a number
(`exists_partsOf_of_isMagnitude`).
-/

set_option autoImplicit false

namespace DurationCalculator.Duration

open Decimal

/-! ## Fractions without trailing zeros -/

/-- What is trimmed from a digit string is zeros. -/
theorem exists_trimZeros (ds : List Char) :
    ∃ k, ds = trimZeros ds ++ List.replicate k '0' := by
  have hsplit := List.rdropWhile_append_rtakeWhile (l := ds) (p := (· == '0'))
  have hzeros : ∀ c ∈ ds.rtakeWhile (· == '0'), c = '0' := by
    intro c hc
    simpa using List.mem_rtakeWhile_imp hc
  refine ⟨(ds.rtakeWhile (· == '0')).length, ?_⟩
  rw [← List.eq_replicate_of_mem hzeros]
  exact hsplit.symm

theorem getLast?_trimZeros (ds : List Char) : (trimZeros ds).getLast? ≠ some '0' := by
  intro hlast
  rw [trimZeros, List.getLast?_reverse] at hlast
  have hhead := List.head?_dropWhile_not (· == '0') ds.reverse
  rw [hlast] at hhead
  simp at hhead

theorem trimZeros_append_zeros {ds : List Char} (h : ds.getLast? ≠ some '0') (k : Nat) :
    trimZeros (ds ++ List.replicate k '0') = ds := by
  have hlast : ∀ c ∈ ds.getLast?, ¬(c == '0') := by
    intro c hc hzero
    exact h (by simpa [beq_iff_eq.1 hzero] using hc)
  have hzeros : ∀ c ∈ List.replicate k '0', c == '0' := by
    intro c hc
    simp [List.eq_of_mem_replicate hc]
  exact List.rdropWhile_append hlast hzeros

/-- The digits of a fraction of `n / 10 ^ places`. -/
def fractionDigits (places n : Nat) : List Char := trimZeros (padded places n)

theorem allDigits_fractionDigits (places n : Nat) : AllDigits (fractionDigits places n) := by
  obtain ⟨k, hk⟩ := exists_trimZeros (padded places n)
  have hdigits := allDigits_padded places n
  rw [hk] at hdigits
  exact (allDigits_append.1 hdigits).1

/-- With the zeros that are trimmed, the digits take all places and denote the number. -/
theorem exists_fractionDigits {places n : Nat} (h : n < 10 ^ places) :
    ∃ k, (fractionDigits places n).length + k = places ∧
      10 ^ k * value (fractionDigits places n) = n := by
  by_cases hplaces : places = 0
  · subst hplaces
    obtain rfl : n = 0 := by simpa using h
    exact ⟨0, rfl, rfl⟩
  · obtain ⟨k, hk⟩ := exists_trimZeros (padded places n)
    refine ⟨k, ?_, ?_⟩
    · have hlength := congrArg List.length hk
      rw [length_padded (Nat.pos_of_ne_zero hplaces) h] at hlength
      simpa [fractionDigits] using hlength.symm
    · have hvalue := congrArg value hk
      rw [value_padded, value_append_zeros] at hvalue
      exact hvalue.symm

/-- Digits that do not end in zero are those of a fraction. -/
theorem fractionDigits_of_trimmed {ds : List Char} (hdigits : AllDigits ds)
    (hlast : ds.getLast? ≠ some '0') (k : Nat) :
    10 ^ k * value ds < 10 ^ (ds.length + k) ∧
      fractionDigits (ds.length + k) (10 ^ k * value ds) = ds := by
  have hlt : 10 ^ k * value ds < 10 ^ (ds.length + k) := by
    rw [Nat.add_comm, Nat.pow_add]
    exact Nat.mul_lt_mul_of_pos_left (value_lt hdigits) (Nat.pow_pos (by decide))
  refine ⟨hlt, ?_⟩
  by_cases hplaces : ds.length + k = 0
  · obtain ⟨hds, rfl⟩ := Nat.add_eq_zero_iff.1 hplaces
    obtain rfl := List.length_eq_zero_iff.1 hds
    rfl
  · -- at full length the padded number and the digits with their zeros are one string
    have hpadded : padded (ds.length + k) (10 ^ k * value ds) = ds ++ List.replicate k '0' := by
      refine eq_of_value_eq (allDigits_padded _ _)
        (allDigits_append.2 ⟨hdigits, allDigits_replicate_zero k⟩) ?_ ?_
      · rw [length_padded (Nat.pos_of_ne_zero hplaces) hlt]
        simp
      · rw [value_padded, value_append_zeros]
    rw [fractionDigits, hpadded, trimZeros_append_zeros hlast]

theorem fractionText_eq_pointed {places n : Nat} (h : n < 10 ^ places) :
    fractionText places n = pointed (fractionDigits places n) := by
  obtain ⟨k, hlength, hvalue⟩ := exists_fractionDigits h
  by_cases hn : n = 0
  · -- the digits denote zero and do not end in zero, so there are none
    have hnil : fractionDigits places n = [] := by
      have htrimmed := (@fractionDigits_of_trimmed [] nofun nofun places).2
      simpa [hn] using htrimmed
    rw [fractionText, if_pos hn, hnil]
    rfl
  · have hnil : fractionDigits places n ≠ [] := by
      intro hnil
      rw [hnil] at hvalue
      simp at hvalue
      exact hn hvalue.symm
    rw [fractionText, if_neg hn, pointed, if_neg hnil]
    rfl

/-! ## The parts of a number -/

/-- The part of `n` times the smallest fraction of a unit that counts. -/
def Part.ofNat (unit : TimeUnit) (n : Nat) : Part :=
  ⟨digits (n / 10 ^ unit.places), fractionDigits unit.places (n % 10 ^ unit.places), unit⟩

namespace Part

theorem mod_places_lt (unit : TimeUnit) (n : Nat) : n % 10 ^ unit.places < 10 ^ unit.places :=
  Nat.mod_lt _ (Nat.pow_pos (by decide))

theorem wellFormed_ofNat (unit : TimeUnit) (n : Nat) : (ofNat unit n).WellFormed where
  whole := isPlain_digits _
  fraction := allDigits_fractionDigits _ _
  places := by
    obtain ⟨k, hlength, -⟩ := exists_fractionDigits (mod_places_lt unit n)
    exact Nat.le.intro hlength
  trimmed := getLast?_trimZeros _

@[simp] theorem count_ofNat (unit : TimeUnit) (n : Nat) :
    (ofNat unit n).count = n / 10 ^ unit.places := value_digits _

theorem nanoseconds_ofNat (unit : TimeUnit) (n : Nat) :
    (ofNat unit n).nanoseconds = n / 10 ^ unit.places * unit.length.count := by
  obtain ⟨k, hlength, hvalue⟩ := exists_fractionDigits (mod_places_lt unit n)
  have hwhole : 10 ^ unit.places * (n / 10 ^ unit.places) + n % 10 ^ unit.places = n :=
    Nat.div_add_mod n _
  rw [nanoseconds, ofNat, exact_eq_div _ _ k]
  dsimp only
  rw [hlength, hvalue, value_digits, hwhole]

/-- Where the fraction goes down to nanoseconds, the part counts them. -/
theorem nanoseconds_ofNat_of_length {unit : TimeUnit}
    (h : unit.length.count = 10 ^ unit.places) (n : Nat) : (ofNat unit n).nanoseconds = n := by
  rw [nanoseconds_ofNat, h]
  push_cast
  field_simp

theorem chars_ofNat (unit : TimeUnit) (n : Nat) :
    (ofNat unit n).chars = digits (n / 10 ^ unit.places) ++
      fractionText unit.places (n % 10 ^ unit.places) ++ unit.symbol := by
  rw [fractionText_eq_pointed (mod_places_lt unit n)]
  rfl

/-- Minutes and hours have no fraction. -/
theorem chars_ofNat_of_places {unit : TimeUnit} (h : unit.places = 0) (n : Nat) :
    (ofNat unit n).chars = digits n ++ unit.symbol := by
  rw [chars_ofNat, h]
  simp [fractionText, Nat.mod_one]

theorem nanoseconds_ofNat_of_places {unit : TimeUnit} (h : unit.places = 0) (n : Nat) :
    (ofNat unit n).nanoseconds = n * unit.length.count := by
  rw [nanoseconds_ofNat, h]
  simp

/-- Every well-formed part is that of a number. -/
theorem WellFormed.exists_ofNat {p : Part} (h : p.WellFormed) :
    ∃ n, p = ofNat p.unit n ∧ n / 10 ^ p.unit.places = p.count := by
  obtain ⟨k, hk⟩ := Nat.exists_eq_add_of_le h.places
  obtain ⟨hlt, hfraction⟩ := fractionDigits_of_trimmed h.fraction h.trimmed k
  rw [← hk] at hlt hfraction
  have hdiv : (10 ^ p.unit.places * p.count + 10 ^ k * value p.fraction) / 10 ^ p.unit.places =
      p.count := by
    rw [Nat.mul_add_div (Nat.pow_pos (by decide)), Nat.div_eq_of_lt hlt, Nat.add_zero]
  have hmod : (10 ^ p.unit.places * p.count + 10 ^ k * value p.fraction) % 10 ^ p.unit.places =
      10 ^ k * value p.fraction := by
    rw [Nat.mul_add_mod, Nat.mod_eq_of_lt hlt]
  refine ⟨10 ^ p.unit.places * p.count + 10 ^ k * value p.fraction, ?_, hdiv⟩
  refine Part.ext ?_ ?_ rfl
  · rw [ofNat, hdiv]
    exact h.whole.digits_value.symm
  · rw [ofNat, hmod]
    exact hfraction.symm

end Part

/-- The parts of `n` nanoseconds, from the largest unit that is reached. -/
def clockParts (n : Nat) : List Part :=
  let total := n / 1000000000
  let second := Part.ofNat .second (n % 60000000000)
  let minute := Part.ofNat .minute (total / 60 % 60)
  if 3600 ≤ total then [.ofNat .hour (total / 3600), minute, second]
  else if 60 ≤ total then [minute, second]
  else [second]

/-- The parts of a number of nanoseconds. -/
def partsOf (n : Nat) : List Part :=
  if n = 0 then [.ofNat .second 0]
  else if n < 1000 then [.ofNat .nanosecond n]
  else if n < 1000000 then [.ofNat .microsecond n]
  else if n < 1000000000 then [.ofNat .millisecond n]
  else clockParts n

theorem partsOf_of_le {n : Nat} (h : 1000000000 ≤ n) : partsOf n = clockParts n := by
  rw [partsOf, if_neg (by omega), if_neg (by omega), if_neg (by omega), if_neg (by omega)]

theorem wellFormed_of_mem_clockParts {n : Nat} : ∀ p ∈ clockParts n, p.WellFormed := by
  unfold clockParts
  dsimp only
  split_ifs <;> simp [Part.wellFormed_ofNat]

theorem wellFormed_of_mem_partsOf {n : Nat} : ∀ p ∈ partsOf n, p.WellFormed := by
  unfold partsOf
  split_ifs
  · simp [Part.wellFormed_ofNat]
  · simp [Part.wellFormed_ofNat]
  · simp [Part.wellFormed_ofNat]
  · simp [Part.wellFormed_ofNat]
  · exact wellFormed_of_mem_clockParts

/-- From a second on, the counts of the parts are those of a canonical text. -/
theorem shape_clockParts {n : Nat} (h : 1000000000 ≤ n) : Shape (clockParts n) := by
  unfold clockParts
  dsimp only
  split_ifs with hhour hminute
  · refine .hours rfl rfl rfl ?_ ?_ ?_ <;> simp [TimeUnit.places] <;> omega
  · refine .minutes rfl rfl ?_ ?_ ?_ <;> simp [TimeUnit.places] <;> omega
  · refine .seconds rfl ?_ ?_ <;> simp [TimeUnit.places] <;> omega

theorem shape_partsOf {n : Nat} (hn : n ≠ 0) : Shape (partsOf n) := by
  unfold partsOf
  rw [if_neg hn]
  split_ifs with hnano hmicro hmilli
  · refine .small (.inl rfl) ?_ ?_ <;> simp [TimeUnit.places] <;> omega
  · refine .small (.inr (.inl rfl)) ?_ ?_ <;> simp [TimeUnit.places] <;> omega
  · refine .small (.inr (.inr rfl)) ?_ ?_ <;> simp [TimeUnit.places] <;> omega
  · exact shape_clockParts (by omega)

theorem isMagnitude_partsOf {n : Nat} (hn : n ≠ 0) : IsMagnitude (partsOf n) :=
  ⟨wellFormed_of_mem_partsOf, shape_partsOf hn⟩

theorem partsOf_ne_nil (n : Nat) : partsOf n ≠ [] := by
  intro hnil
  by_cases hn : n = 0
  · subst hn
    cases hnil
  · have hshape := shape_partsOf hn
    rw [hnil] at hshape
    cases hshape

/-- The parts are worth the number, which is made up of hours, minutes and the rest. -/
theorem worth_clockParts (n : Nat) : worth (clockParts n) = n := by
  have hsecond := @Part.nanoseconds_ofNat_of_length .second rfl (n % 60000000000)
  have hminute := @Part.nanoseconds_ofNat_of_places .minute rfl (n / 1000000000 / 60 % 60)
  have hhour := @Part.nanoseconds_ofNat_of_places .hour rfl (n / 1000000000 / 3600)
  have hminutes : TimeUnit.minute.length.count = 60000000000 := rfl
  have hhours : TimeUnit.hour.length.count = 3600000000000 := rfl
  have hwhole : n / 1000000000 / 3600 * 3600000000000 +
      (n / 1000000000 / 60 % 60 * 60000000000 + n % 60000000000) = n := by omega
  have hcast := congrArg (Nat.cast (R := Rat)) hwhole
  push_cast at hcast
  unfold clockParts worth
  dsimp only
  split_ifs with hlong hmedium
  · simpa [hsecond, hminute, hhour, hminutes, hhours] using hcast
  · have hzero : n / 1000000000 / 3600 = 0 := by omega
    rw [hzero] at hcast
    simpa [hsecond, hminute, hminutes] using hcast
  · have hsmall : n % 60000000000 = n := by omega
    simpa [hsmall] using hsecond

theorem worth_partsOf (n : Nat) : worth (partsOf n) = n := by
  -- below a second there is one part, and it counts nanoseconds
  have hone {unit : TimeUnit} (h : unit.length.count = 10 ^ unit.places) :
      worth [Part.ofNat unit n] = n := by
    simp [worth, Part.nanoseconds_ofNat_of_length h]
  unfold partsOf
  split_ifs with hzero hnano hmicro hmilli
  · simp [worth, Part.nanoseconds_ofNat, hzero]
  · exact hone rfl
  · exact hone rfl
  · exact hone rfl
  · exact worth_clockParts n

/-- The text of a number is that of its parts. -/
theorem clockText_eq_charsOf (n : Nat) : clockText n = charsOf (clockParts n) := by
  -- the seconds and their fraction do not depend on the minutes
  have hwhole : n % 60000000000 / 1000000000 = n / 1000000000 % 60 := by omega
  have hfraction : n % 60000000000 % 1000000000 = n % 1000000000 := by omega
  have hsecond : (Part.ofNat .second (n % 60000000000)).chars =
      digits (n / 1000000000 % 60) ++ fractionText 9 (n % 1000000000) ++ ['s'] := by
    rw [Part.chars_ofNat, ← hwhole, ← hfraction]
    rfl
  have hminute := @Part.chars_ofNat_of_places .minute rfl (n / 1000000000 / 60 % 60)
  have hhour := @Part.chars_ofNat_of_places .hour rfl (n / 1000000000 / 3600)
  unfold clockText clockParts charsOf
  dsimp only
  split_ifs with hlong hmedium
  · simp [hsecond, hminute, hhour, TimeUnit.symbol, TimeUnit.suffix]
  · simp [hsecond, hminute, TimeUnit.symbol, TimeUnit.suffix]
  · simp [hsecond]

theorem magnitudeText_eq_charsOf (n : Nat) : magnitudeText n = charsOf (partsOf n) := by
  have hone (unit : TimeUnit) : charsOf [Part.ofNat unit n] = digits (n / 10 ^ unit.places) ++
      fractionText unit.places (n % 10 ^ unit.places) ++ unit.symbol := by
    simp [charsOf, Part.chars_ofNat]
  unfold magnitudeText partsOf
  split_ifs with hzero hnano hmicro hmilli
  · rfl
  · simp [hone, TimeUnit.places, TimeUnit.symbol, TimeUnit.suffix, fractionText, Nat.mod_one]
  · exact (hone .microsecond).symm
  · exact (hone .millisecond).symm
  · exact clockText_eq_charsOf n

/-! ## Every sequence of parts is that of a number -/

/-- The parts of a canonical text that is not zero are those of a number. -/
theorem exists_partsOf_of_isMagnitude {parts : List Part} (h : IsMagnitude parts) :
    ∃ n, n ≠ 0 ∧ parts = partsOf n := by
  obtain ⟨hwellFormed, hshape⟩ := h
  -- each part is that of a number, whose quotient is the count of the part
  have hpart : ∀ p ∈ parts, ∃ n, p = Part.ofNat p.unit n ∧ n / 10 ^ p.unit.places = p.count :=
    fun p hp => (hwellFormed p hp).exists_ofNat
  cases hshape with
  | @small p hunit hlo hhi =>
      obtain ⟨n, hp, hcount⟩ := hpart p (by simp)
      refine ⟨n, ?_⟩
      rw [hp]
      rcases hunit with hunit | hunit | hunit <;>
        simp only [hunit, TimeUnit.places] at hcount ⊢
      · have hn : n ≠ 0 := by omega
        simp [partsOf, hn, show n < 1000 by omega]
      · have hn : n ≠ 0 := by omega
        simp [partsOf, hn, show ¬n < 1000 by omega, show n < 1000000 by omega]
      · have hn : n ≠ 0 := by omega
        simp [partsOf, hn, show ¬n < 1000 by omega, show ¬n < 1000000 by omega,
          show n < 1000000000 by omega]
  | @seconds s hs hlo hhi =>
      obtain ⟨n, hp, hcount⟩ := hpart s (by simp)
      simp only [hs, TimeUnit.places] at hcount
      refine ⟨n, by omega, ?_⟩
      rw [hp, hs, partsOf_of_le (by omega), clockParts, if_neg (by omega), if_neg (by omega)]
      have hn : n % 60000000000 = n := by omega
      rw [hn]
  | @minutes m s hm hs hlo hhi hsecond =>
      obtain ⟨i, hi, hminutes⟩ := hpart m (by simp)
      obtain ⟨k, hk, hseconds⟩ := hpart s (by simp)
      simp only [hm, hs, TimeUnit.places, pow_zero, Nat.div_one] at hminutes hseconds
      refine ⟨60000000000 * i + k, by omega, ?_⟩
      have hm' : (60000000000 * i + k) / 1000000000 / 60 % 60 = i := by omega
      have hs' : (60000000000 * i + k) % 60000000000 = k := by omega
      rw [hi, hm, hk, hs, partsOf_of_le (by omega), clockParts, if_neg (by omega), if_pos (by omega),
        hm', hs']
  | @hours h m s hh hm hs hlo hminute hsecond =>
      obtain ⟨j, hj, hhours⟩ := hpart h (by simp)
      obtain ⟨i, hi, hminutes⟩ := hpart m (by simp)
      obtain ⟨k, hk, hseconds⟩ := hpart s (by simp)
      simp only [hh, hm, hs, TimeUnit.places, pow_zero, Nat.div_one] at hhours hminutes hseconds
      let n := 3600000000000 * j + 60000000000 * i + k
      refine ⟨n, by omega, ?_⟩
      have hh' : n / 1000000000 / 3600 = j := by omega
      have hm' : n / 1000000000 / 60 % 60 = i := by omega
      have hs' : n % 60000000000 = k := by omega
      rw [hj, hh, hi, hm, hk, hs, partsOf_of_le (by omega), clockParts, if_pos (by omega), hh', hm',
        hs']

/-! ## Texts of numbers -/

/-- The canonical text of `n` nanoseconds. -/
def signedText (n : Int) : List Char :=
  if n < 0 then '-' :: magnitudeText n.natAbs else magnitudeText n.natAbs

theorem chars_eq_signedText (d : Duration) : d.chars = signedText d.count := rfl

theorem toList_text_of_nonneg {d : Duration} (hd : 0 ≤ d.count) :
    d.text.toList = charsOf (partsOf d.count.natAbs) := by
  rw [text, String.toList_ofList, chars_eq_signedText, signedText, if_neg (by omega),
    magnitudeText_eq_charsOf]

theorem canonical_signedText (n : Int) : Canonical (signedText n) n := by
  have hworth := worth_partsOf n.natAbs
  by_cases hzero : n = 0
  · subst hzero
    exact .zero
  · have hparts : IsMagnitude (partsOf n.natAbs) := isMagnitude_partsOf (by omega)
    unfold signedText
    rw [magnitudeText_eq_charsOf]
    split_ifs with hneg
    · have hn : (n : Rat) = -worth (partsOf n.natAbs) := by
        rw [hworth, Nat.cast_natAbs, abs_of_neg hneg]
        simp
      rw [hn]
      exact .negative hparts
    · have hn : (n : Rat) = worth (partsOf n.natAbs) := by
        rw [hworth, Nat.cast_natAbs, abs_of_nonneg (by omega)]
      rw [hn]
      exact .positive hparts

/-- A canonical text is worth an integer, and is the text of that integer. -/
theorem exists_signedText_of_canonical {text : List Char} {q : Rat} (h : Canonical text q) :
    ∃ n : Int, q = n ∧ text = signedText n := by
  cases h with
  | zero => exact ⟨0, rfl, rfl⟩
  | positive hparts =>
      obtain ⟨n, hn, rfl⟩ := exists_partsOf_of_isMagnitude hparts
      refine ⟨n, worth_partsOf n, ?_⟩
      rw [signedText, if_neg (by omega), Int.natAbs_natCast, magnitudeText_eq_charsOf]
  | negative hparts =>
      obtain ⟨n, hn, rfl⟩ := exists_partsOf_of_isMagnitude hparts
      refine ⟨-n, by simp [worth_partsOf], ?_⟩
      rw [signedText, if_pos (by omega), Int.natAbs_neg, Int.natAbs_natCast,
        magnitudeText_eq_charsOf]

/-- The text of a number starts with a digit. -/
theorem head?_magnitudeText (n : Nat) : (magnitudeText n).head? ≠ some '-' := by
  intro hminus
  rw [magnitudeText_eq_charsOf] at hminus
  have hdigit := head?_charsOf (fun p => wellFormed_of_mem_partsOf (n := n) p) '-' hminus
  exact absurd hdigit (by decide)

theorem head?_signedText {n : Int} : (signedText n).head? = some '-' ↔ n < 0 := by
  unfold signedText
  split_ifs with hneg
  · simp [hneg]
  · simp [hneg, head?_magnitudeText]

theorem magnitudeText_injective {m n : Nat} (h : magnitudeText m = magnitudeText n) : m = n := by
  rw [magnitudeText_eq_charsOf, magnitudeText_eq_charsOf] at h
  have hparts := eq_of_charsOf_eq wellFormed_of_mem_partsOf wellFormed_of_mem_partsOf h
  have hworth : (m : Rat) = n := by
    rw [← worth_partsOf, ← worth_partsOf n, hparts]
  exact_mod_cast hworth

/-- Distinct numbers have distinct texts. -/
theorem signedText_injective {m n : Int} (h : signedText m = signedText n) : m = n := by
  have hsign : m < 0 ↔ n < 0 := by rw [← head?_signedText, ← head?_signedText, h]
  unfold signedText at h
  by_cases hm : m < 0
  · rw [if_pos hm, if_pos (hsign.1 hm)] at h
    have habs := magnitudeText_injective (List.cons.inj h).2
    omega
  · rw [if_neg hm, if_neg (fun hn => hm (hsign.2 hn))] at h
    have habs := magnitudeText_injective h
    omega

/-! ## Texts of durations -/

/-- The text of a duration is canonical and worth the duration: it is `0s` for zero only, and
starts with a minus sign for negative durations only. A canonical text is worth one number, and if
that lies in the 64-bit range, the text is that of a duration. So distinct durations have distinct
texts. -/
theorem canonical_text_bijective :
    (∀ d : Duration, Canonical d.text.toList d.count ∧
      (d.text.toList = ['0', 's'] ↔ d.count = 0) ∧
      (d.text.toList.head? = some '-' ↔ d.count < 0)) ∧
    (∀ text q, Canonical text q →
      (∀ q', Canonical text q' → q' = q) ∧
      ((Int64.minValue.toInt : Rat) ≤ q → q ≤ (Int64.maxValue.toInt : Rat) →
        ∃ d : Duration, (d.count : Rat) = q ∧ d.text.toList = text)) ∧
    ∀ d d' : Duration, d.text = d'.text → d = d' := by
  have htext (d : Duration) : d.text.toList = signedText d.count := String.toList_ofList
  refine ⟨?_, ?_, ?_⟩
  · intro d
    rw [htext]
    refine ⟨canonical_signedText d.count, ?_, head?_signedText⟩
    exact ⟨fun hzero => signedText_injective (n := 0) hzero, fun hzero => by rw [hzero]; rfl⟩
  · intro text q hcanonical
    obtain ⟨n, rfl, rfl⟩ := exists_signedText_of_canonical hcanonical
    refine ⟨?_, ?_⟩
    · intro q' hcanonical'
      obtain ⟨n', rfl, hsame⟩ := exists_signedText_of_canonical hcanonical'
      rw [signedText_injective hsame]
    · intro hlo hhi
      have hrange : Checked.InRange n := ⟨by exact_mod_cast hlo, by exact_mod_cast hhi⟩
      obtain ⟨d, hcount⟩ := exists_count_eq hrange
      exact ⟨d, by rw [hcount], by rw [htext, hcount]⟩
  · intro d d' hsame
    have hchars : signedText d.count = signedText d'.count := by
      rw [← htext, hsame, htext]
    exact count_inj.1 (signedText_injective hchars)

/-- The text of the least duration, whose size is the size of no other. -/
theorem canonical_text_minimum :
    let least : Duration := ⟨Int64.minValue⟩
    let text := "-2562047h47m16.854775808s".toList
    let q : Rat := -9223372036854775808
    least.text.toList = text ∧ Canonical text q ∧ (∀ q', Canonical text q' → q' = q) ∧
      (Int64.minValue.toInt : Rat) ≤ q ∧ q ≤ (Int64.maxValue.toInt : Rat) ∧
      (∃ d : Duration, (d.count : Rat) = q ∧ d.text.toList = text) ∧
      ∀ d : Duration, d.text = least.text → d = least := by
  intro least text q
  obtain ⟨hwritten, hcanonical, hdistinct⟩ := canonical_text_bijective
  have htext : least.text.toList = text := by decide
  have hworth : Canonical text q := by
    have hleast := (hwritten least).1
    rw [htext] at hleast
    exact_mod_cast hleast
  have hlo : (Int64.minValue.toInt : Rat) ≤ q := by decide
  have hhi : q ≤ (Int64.maxValue.toInt : Rat) := by decide
  obtain ⟨hunique, hexists⟩ := hcanonical text q hworth
  exact ⟨htext, hworth, hunique, hlo, hhi, hexists hlo hhi, fun d hd => hdistinct d least hd⟩

end DurationCalculator.Duration
