import Mathlib.Algebra.Order.Field.Rat
import Mathlib.Data.List.DropRight
import Mathlib.Data.List.Induction
import Mathlib.Data.Nat.Digits.Defs
import Mathlib.Tactic.FieldSimp
import Mathlib.Tactic.Ring
import DurationCalculator.Decimal

/-!
# Digit strings

The number that a digit string denotes, read place by place. A string of fixed length is determined
by its number (`eq_of_value_eq`), and so is a string without superfluous zeros in front: it is the
digits of its number (`IsPlain.digits_value`). With digits behind a decimal separator the number is
a fraction (`exact`). Where digits end in front of something else, the text is cut in one way
(`List.span_unique`).
-/

set_option autoImplicit false

/-! ## Spans -/

namespace List

variable {α : Type} {p : α → Bool}

/-- Where the first part of a list fulfils a predicate and the second does not start with it, the
predicate cuts the list between the two. -/
theorem span_append {xs ys : List α} (hxs : ∀ x ∈ xs, p x)
    (hys : ∀ y ∈ ys.head?, ¬p y) :
    (xs ++ ys).takeWhile p = xs ∧ (xs ++ ys).dropWhile p = ys := by
  rw [List.takeWhile_append_of_pos hxs, List.dropWhile_append_of_pos hxs]
  cases ys with
  | nil => simp
  | cons y ys =>
      have hy : p y = false := Bool.eq_false_iff.2 (hys y rfl)
      simp [hy]

/-- What fulfils the predicate at the end is dropped, in front of a list that does not end in it. -/
theorem rdropWhile_append {xs ys : List α} (hxs : ∀ x ∈ xs.getLast?, ¬p x)
    (hys : ∀ y ∈ ys, p y) : (xs ++ ys).rdropWhile p = xs := by
  have hhead : ∀ x ∈ xs.reverse.head?, ¬p x := by
    rwa [List.head?_reverse]
  have hreverse : ∀ y ∈ ys.reverse, p y := by
    intro y hy
    exact hys y (List.mem_reverse.1 hy)
  rw [List.rdropWhile, List.reverse_append, (span_append hreverse hhead).2, List.reverse_reverse]

/-- Every list is cut. -/
theorem exists_span (p : α → Bool) (zs : List α) :
    ∃ xs ys, zs = xs ++ ys ∧ (∀ x ∈ xs, p x) ∧ ∀ y ∈ ys.head?, ¬p y := by
  refine ⟨zs.takeWhile p, zs.dropWhile p, List.takeWhile_append_dropWhile.symm, ?_, ?_⟩
  · exact List.all_eq_true.1 List.all_takeWhile
  · intro y hy
    have hnot := List.head?_dropWhile_not p zs
    rw [Option.mem_def.1 hy] at hnot
    exact Bool.eq_false_iff.1 hnot

/-- A list is cut in one way. -/
theorem span_unique {xs xs' ys ys' : List α} (hxs : ∀ x ∈ xs, p x)
    (hxs' : ∀ x ∈ xs', p x) (hys : ∀ y ∈ ys.head?, ¬p y) (hys' : ∀ y ∈ ys'.head?, ¬p y)
    (h : xs ++ ys = xs' ++ ys') : xs = xs' ∧ ys = ys' := by
  obtain ⟨htake, hdrop⟩ := span_append hxs hys
  obtain ⟨htake', hdrop'⟩ := span_append hxs' hys'
  rw [h] at htake hdrop
  exact ⟨htake.symm.trans htake', hdrop.symm.trans hdrop'⟩

end List

namespace DurationCalculator.Decimal

/-- Every character is a digit. -/
def AllDigits (ds : List Char) : Prop := ∀ c ∈ ds, c.isDigit

/-- One or more digits, the first of which is zero only if it is the only one. -/
structure IsPlain (ds : List Char) : Prop where
  allDigits : AllDigits ds
  ne_nil : ds ≠ []
  head_ne : ds ≠ ['0'] → ds.head? ≠ some '0'

theorem ne_of_isDigit {c other : Char} (h : c.isDigit) (hother : other.isDigit = false) :
    c ≠ other := by
  rintro rfl
  rw [hother] at h
  exact Bool.false_ne_true h

/-! ## Place values -/

@[simp] theorem value_nil : value [] = 0 := Nat.ofDigitChars_nil

theorem value_append (xs ys : List Char) :
    value (xs ++ ys) = 10 ^ ys.length * value xs + value ys := by
  rw [value, Nat.ofDigitChars_append, Nat.ofDigitChars_eq_ofDigitChars_zero]
  rfl

theorem value_cons (c : Char) (ds : List Char) :
    value (c :: ds) = 10 ^ ds.length * value [c] + value ds := by
  rw [← List.singleton_append, value_append]

theorem value_singleton (c : Char) : value [c] = c.toNat - 48 := by
  simp [value, Nat.ofDigitChars_cons, Nat.ofDigitChars_nil]

theorem value_replicate_zero (k : Nat) : value (List.replicate k '0') = 0 := by
  rw [value, Nat.ofDigitChars_replicate_zero, Nat.mul_zero]

/-- Zeros at the end multiply by powers of ten. -/
theorem value_append_zeros (ds : List Char) (k : Nat) :
    value (ds ++ List.replicate k '0') = 10 ^ k * value ds := by
  rw [value_append, value_replicate_zero, List.length_replicate, Nat.add_zero]

theorem allDigits_append {xs ys : List Char} :
    AllDigits (xs ++ ys) ↔ AllDigits xs ∧ AllDigits ys := by
  simp [AllDigits, or_imp, forall_and]

theorem allDigits_cons {c : Char} {ds : List Char} :
    AllDigits (c :: ds) ↔ c.isDigit ∧ AllDigits ds := by
  simp [AllDigits]

theorem allDigits_digits (n : Nat) : AllDigits (digits n) := fun _ => isDigit_of_mem_digits

theorem allDigits_replicate_zero (k : Nat) : AllDigits (List.replicate k '0') := by
  intro c hc
  rw [List.eq_of_mem_replicate hc]
  rfl

/-- A digit denotes a number below ten, of which it is the only digit. -/
theorem digits_value_singleton {c : Char} (h : c.isDigit) :
    value [c] < 10 ∧ digits (value [c]) = [c] := by
  obtain ⟨hlo, hhi⟩ := Char.isDigit_iff_toNat.1 h
  have hlo' : 48 ≤ c.toNat := hlo
  have hhi' : c.toNat ≤ 57 := hhi
  have hlt : value [c] < 10 := by
    rw [value_singleton]
    omega
  refine ⟨hlt, ?_⟩
  rw [digits, Nat.toDigits_of_lt_base hlt]
  have hnat : (Nat.digitChar (value [c])).toNat = c.toNat := by
    rw [Nat.toNat_digitChar_of_lt_ten hlt, value_singleton]
    omega
  rw [Char.toNat_inj.1 hnat]

/-- As many digits as `ds` has denote a number below the next power of ten. -/
theorem value_lt {ds : List Char} (h : AllDigits ds) : value ds < 10 ^ ds.length := by
  induction ds with
  | nil => simp
  | cons c ds ih =>
      obtain ⟨hc, hds⟩ := allDigits_cons.1 h
      have hhead := (digits_value_singleton hc).1
      have htail := ih hds
      -- at most nine times the place value, and less than one more
      have hplace : 10 ^ ds.length * value [c] ≤ 10 ^ ds.length * 9 :=
        Nat.mul_le_mul_left _ (by omega)
      rw [value_cons, List.length_cons, Nat.pow_succ]
      omega

/-- Digit strings of one length that denote one number are equal. -/
theorem eq_of_value_eq {xs ys : List Char} (hxs : AllDigits xs) (hys : AllDigits ys)
    (hlength : xs.length = ys.length) (hvalue : value xs = value ys) : xs = ys := by
  induction xs generalizing ys with
  | nil => exact (List.length_eq_zero_iff.1 hlength.symm).symm
  | cons c xs ih =>
      obtain ⟨d, ys, rfl⟩ := List.exists_cons_of_length_eq_add_one hlength.symm
      obtain ⟨hc, hxs⟩ := allDigits_cons.1 hxs
      obtain ⟨hd, hys⟩ := allDigits_cons.1 hys
      have hrest : xs.length = ys.length := Nat.succ.inj hlength
      have hx := value_lt hxs
      have hy := value_lt hys
      rw [value_cons c, value_cons d, hrest] at hvalue
      rw [hrest] at hx
      -- the first digit is the quotient by its place value, the others are the remainder
      have hplace : 0 < 10 ^ ys.length := Nat.pow_pos (by decide)
      have hhead : value [c] = value [d] := by
        have hquotient := congrArg (· / 10 ^ ys.length) hvalue
        simp only [Nat.mul_add_div hplace, Nat.div_eq_of_lt hx, Nat.div_eq_of_lt hy,
          Nat.add_zero] at hquotient
        exact hquotient
      have hchar : [c] = [d] := by
        rw [← (digits_value_singleton hc).2, hhead, (digits_value_singleton hd).2]
      rw [hhead] at hvalue
      rw [(List.cons.inj hchar).1, ih hxs hys hrest (Nat.add_left_cancel hvalue)]

/-! ## Numbers without superfluous zeros -/

/-- The number of a string that starts with another digit than zero is not zero. -/
theorem value_pos {ds : List Char} (h : AllDigits ds) (hne : ds ≠ [])
    (hhead : ds.head? ≠ some '0') : 0 < value ds := by
  cases ds with
  | nil => exact absurd rfl hne
  | cons c ds =>
      obtain ⟨hc, -⟩ := allDigits_cons.1 h
      have hvalue : value [c] ≠ 0 := by
        intro hzero
        have hdigits := (digits_value_singleton hc).2
        rw [hzero] at hdigits
        obtain rfl : '0' = c := (List.cons.inj hdigits).1
        exact hhead rfl
      rw [value_cons]
      have hplace : 0 < 10 ^ ds.length * value [c] :=
        Nat.mul_pos (Nat.pow_pos (by decide)) (Nat.pos_of_ne_zero hvalue)
      omega

/-- A string without superfluous zeros is the digits of its number. -/
theorem IsPlain.digits_value {ds : List Char} (h : IsPlain ds) : digits (value ds) = ds := by
  -- from the last digit: what stands in front of it is plain again
  induction ds using List.reverseRecOn with
  | nil => exact absurd rfl h.ne_nil
  | append_singleton init c ih =>
      obtain ⟨hinit, hlast⟩ := allDigits_append.1 h.allDigits
      obtain ⟨hlt, hdigit⟩ := digits_value_singleton (hlast c List.mem_cons_self)
      by_cases hnil : init = []
      · subst hnil
        exact hdigit
      · have hhead : init.head? ≠ some '0' := by
          have hne : init ++ [c] ≠ ['0'] := by
            intro hone
            exact hnil (by simpa using congrArg List.length hone)
          have hwhole := h.head_ne hne
          rwa [List.head?_append_of_ne_nil _ hnil] at hwhole
        have hplain : IsPlain init := ⟨hinit, hnil, fun _ => hhead⟩
        calc digits (value (init ++ [c]))
            = digits (10 * value init + value [c]) := by rw [value_append]; rfl
          _ = digits (value init) ++ digits (value [c]) :=
              (Nat.toDigits_append_toDigits (by decide) (value_pos hinit hnil hhead) hlt).symm
          _ = init ++ [c] := by rw [ih hplain, hdigit]

/-- The digits of a number have no superfluous zeros. -/
theorem isPlain_digits (n : Nat) : IsPlain (digits n) := by
  refine ⟨allDigits_digits n, digits_ne_nil n, ?_⟩
  induction n using Nat.strongRecOn with
  | ind n ih =>
      intro hne
      by_cases hn : n < 10
      · rw [digits, Nat.toDigits_of_lt_base hn] at hne ⊢
        simpa using hne
      · -- the first digit is that of the number without its last digit
        have hrest : digits (n / 10) ≠ ['0'] := by
          intro hzero
          have hvalue := value_digits (n / 10)
          rw [hzero, value_singleton] at hvalue
          have hten : '0'.toNat = 48 := rfl
          omega
        have hhead := ih (n / 10) (by omega) hrest
        rw [digits, Nat.toDigits_of_base_le (by decide) (by omega)]
        rwa [List.head?_append_of_ne_nil _ Nat.toDigits_ne_nil]

/-! ## Places -/

/-- A number below `10 ^ width` takes `width` places when zeros are put in front. -/
theorem length_padded {width n : Nat} (hwidth : 0 < width) (h : n < 10 ^ width) :
    (padded width n).length = width := by
  have hlength := Nat.toDigits_length 10 n width hwidth h
  change (digits n).length ≤ width at hlength
  rw [padded, List.length_append, List.length_replicate]
  omega

theorem value_padded (width n : Nat) : value (padded width n) = n := by
  rw [padded, value_append, value_replicate_zero, value_digits, Nat.mul_zero, Nat.zero_add]

theorem allDigits_padded (width n : Nat) : AllDigits (padded width n) :=
  allDigits_append.2 ⟨allDigits_replicate_zero _, allDigits_digits n⟩

/-! ## Fractions -/

/-- The number that digits with the digits `fraction` behind a separator denote. -/
def exact (whole fraction : List Char) : Rat :=
  (value (whole ++ fraction) : Rat) / 10 ^ fraction.length

theorem exact_nonneg (whole fraction : List Char) : 0 ≤ exact whole fraction :=
  div_nonneg (Nat.cast_nonneg _) (pow_nonneg (Nat.cast_nonneg 10) _)

theorem exact_nil (whole : List Char) : exact whole [] = value whole := by
  simp [exact]

/-- The number is the same with `k` zeros more behind the fraction. -/
theorem exact_eq_div (whole fraction : List Char) (k : Nat) :
    exact whole fraction =
      ((10 ^ (fraction.length + k) * value whole + 10 ^ k * value fraction : Nat) : Rat) /
        10 ^ (fraction.length + k) := by
  rw [exact, value_append]
  push_cast
  field_simp
  ring

end DurationCalculator.Decimal
