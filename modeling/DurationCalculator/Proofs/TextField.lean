import DurationCalculator.Proofs.Literal.Whole
import DurationCalculator.TextField

/-!
# What stands in a text field

A field puts fill characters on both sides of a text and nothing else, as many as are missing to
its width (`place_eq`, `length_place`). Of a duration it holds the canonical text, up to the
precision. Of an integer it holds the sign and all digits, and the zeros that may stand between
them do not count: with the spaces around it removed, the text is a literal of the integer
(`formatting_keeps_text`).

The flags of a field are read exactly as they are written, and no other text is taken for flags
(`TextField.ofFlags?_eq_some_iff`).
-/

set_option autoImplicit false

namespace DurationCalculator

/-- The margins together are what is missing. -/
theorem Alignment.margins_add (missing : Nat) (alignment : Alignment) :
    (alignment.margins missing).1 + (alignment.margins missing).2 = missing := by
  cases alignment with
  | left => exact Nat.zero_add missing
  | right => exact Nat.add_zero missing
  | center => exact Nat.add_sub_cancel' (Nat.div_le_self missing 2)

namespace TextField

/-! ## Places -/

/-- The characters of a word that a precision keeps. -/
def keeps : Option Nat → List Char → List Char
  | none, text => text
  | some precision, text => text.take precision

/-- The text without the spaces at its ends. -/
def trimSpaces (text : List Char) : List Char :=
  (text.dropWhile (· == ' ')).rdropWhile (· == ' ')

section Place

variable (field : TextField) (usual : Alignment) (text : List Char)

theorem place_eq :
    field.place usual text =
      List.replicate ((field.alignment.getD usual).margins (field.width - text.length)).1
          field.fill ++ text ++
        List.replicate ((field.alignment.getD usual).margins (field.width - text.length)).2
          field.fill := rfl

theorem length_place : (field.place usual text).length = max field.width text.length := by
  have hmargins := (field.alignment.getD usual).margins_add (field.width - text.length)
  rw [place_eq]
  simp only [List.length_append, List.length_replicate]
  omega

end Place

theorem isSpace_replicate (k : Nat) : ∀ c ∈ List.replicate k ' ', c == ' ' := by
  intro c hc
  exact beq_iff_eq.2 (List.eq_of_mem_replicate hc)

/-- Spaces around a text without spaces are removed. -/
theorem trimSpaces_replicate {text : List Char} (hne : text ≠ []) (h : ' ' ∉ text)
    (before behind : Nat) :
    trimSpaces (List.replicate before ' ' ++ text ++ List.replicate behind ' ') = text := by
  have hletter : ∀ c ∈ text, ¬(c == ' ') := by
    intro c hc hspace
    obtain rfl : c = ' ' := beq_iff_eq.1 hspace
    exact h hc
  have hhead : ∀ c ∈ (text ++ List.replicate behind ' ').head?, ¬(c == ' ') := by
    intro c hc
    rw [List.head?_append_of_ne_nil _ hne] at hc
    exact hletter c (List.mem_of_mem_head? hc)
  have hlast : ∀ c ∈ text.getLast?, ¬(c == ' ') := by
    intro c hc
    exact hletter c (List.mem_of_mem_getLast? hc)
  rw [trimSpaces, List.append_assoc, (List.span_append (isSpace_replicate before) hhead).2,
    List.rdropWhile_append hlast (isSpace_replicate behind)]

/-! ## Integers -/

/-- The sign that is written in front of an integer. -/
def signOf (plus : Bool) (n : Int) : List Char :=
  if n < 0 then ['-'] else if plus then ['+'] else []

theorem integer_eq (field : TextField) (n : Int) :
    field.integer n =
      if field.zeros then
        signOf field.plus n ++
          List.replicate (field.width - ((signOf field.plus n).length +
            (Decimal.digits n.natAbs).length)) '0' ++ Decimal.digits n.natAbs
      else field.place .right (signOf field.plus n ++ Decimal.digits n.natAbs) := rfl

theorem length_integer (field : TextField) (n : Int) :
    (field.integer n).length =
      max field.width (signOf field.plus n ++ Decimal.digits n.natAbs).length := by
  rw [integer_eq]
  split_ifs
  · simp only [List.length_append, List.length_replicate]
    omega
  · exact length_place field .right _

/-- Without padding an integer is its text, behind a plus sign if one is to be shown. -/
theorem signOf_append_digits (plus : Bool) (n : Int) :
    signOf plus n ++ Decimal.digits n.natAbs =
      (if plus ∧ 0 ≤ n then ['+'] else []) ++ Decimal.ofInt n := by
  rw [signOf, Decimal.ofInt]
  by_cases hneg : n < 0
  · have hplus : ¬(plus ∧ 0 ≤ n) := fun h => absurd h.2 (not_le.2 hneg)
    rw [if_pos hneg, if_pos hneg, if_neg hplus]
    rfl
  · rw [if_neg hneg, if_neg hneg]
    simp only [not_lt.1 hneg, and_true]

theorem space_notMem_signOf (plus : Bool) (n : Int) : ' ' ∉ signOf plus n := by
  unfold signOf
  split_ifs <;> simp

theorem space_notMem_of_allDigits {ds : List Char} (h : Decimal.AllDigits ds) : ' ' ∉ ds := by
  intro hspace
  exact absurd (h ' ' hspace) (by decide)

/-- What stands between the spaces are the sign and the digits, with zeros between them or not. -/
theorem exists_trimSpaces_integer {field : TextField} (hfill : field.fill = ' ') (n : Int) :
    ∃ k, trimSpaces (field.integer n) =
      signOf field.plus n ++ (List.replicate k '0' ++ Decimal.digits n.natAbs) := by
  have hwritten (k : Nat) :
      signOf field.plus n ++ (List.replicate k '0' ++ Decimal.digits n.natAbs) ≠ [] ∧
        ' ' ∉ signOf field.plus n ++ (List.replicate k '0' ++ Decimal.digits n.natAbs) := by
    have hdigits := Decimal.allDigits_append.2
      ⟨Decimal.allDigits_replicate_zero k, Decimal.allDigits_digits n.natAbs⟩
    constructor
    · simp [Decimal.digits_ne_nil]
    · rw [List.mem_append, not_or]
      exact ⟨space_notMem_signOf _ _, space_notMem_of_allDigits hdigits⟩
  rw [integer_eq]
  split_ifs with hzeros
  · refine ⟨field.width - ((signOf field.plus n).length + (Decimal.digits n.natAbs).length), ?_⟩
    rw [List.append_assoc]
    generalize field.width - _ = k
    have htrim := trimSpaces_replicate (hwritten k).1 (hwritten k).2 0 0
    simpa using htrim
  · refine ⟨0, ?_⟩
    have hplain := hwritten 0
    rw [place_eq, hfill]
    exact trimSpaces_replicate hplain.1 hplain.2 _ _

end TextField

/-- The sign of an integer is read off in front of digits. -/
theorem splitSign_signOf (plus : Bool) (n : Int) {ds : List Char} (h : Decimal.isNumeral ds) :
    Decimal.splitSign (TextField.signOf plus n ++ ds) = (decide (n < 0), ds) := by
  obtain ⟨hne, hdigits⟩ := isNumeral_iff.1 h
  unfold TextField.signOf
  split_ifs with hneg
  · rw [decide_eq_true hneg]
    rfl
  · rw [decide_eq_false hneg]
    rfl
  · obtain ⟨c, rest, rfl⟩ := List.exists_cons_of_ne_nil hne
    rw [decide_eq_false hneg]
    exact Decimal.splitSign_of_isDigit (hdigits c List.mem_cons_self) rest

theorem Decimal.signed_natAbs (n : Int) : signed (decide (n < 0)) n.natAbs = n := by
  unfold signed
  split_ifs with hneg
  · have hnegative : n < 0 := of_decide_eq_true hneg
    omega
  · have hnonneg : ¬n < 0 := fun hlt => hneg (decide_eq_true hlt)
    omega

/-- A sign and the digits of an integer are its literal, with zeros between them or not. -/
theorem IntegerLiteral.read?_signOf (plus : Bool) (n : Int64) (k : Nat) :
    read? (TextField.signOf plus n.toInt ++
      (List.replicate k '0' ++ Decimal.digits n.toInt.natAbs)) = some n := by
  have hnumeral : Decimal.isNumeral (List.replicate k '0' ++ Decimal.digits n.toInt.natAbs) := by
    refine isNumeral_iff.2 ⟨by simp [Decimal.digits_ne_nil], ?_⟩
    exact Decimal.allDigits_append.2
      ⟨Decimal.allDigits_replicate_zero k, Decimal.allDigits_digits n.toInt.natAbs⟩
  have hvalue : Decimal.value (List.replicate k '0' ++ Decimal.digits n.toInt.natAbs) =
      n.toInt.natAbs := by
    rw [Decimal.value_append, Decimal.value_replicate_zero, Decimal.value_digits, Nat.mul_zero,
      Nat.zero_add]
  rw [read?_of_splitSign (splitSign_signOf plus n.toInt hnumeral) hnumeral, hvalue,
    Decimal.signed_natAbs, Checked.ofInt?_eq_some_iff]

/-! ## Values -/

/-- A field shows all of its value. A duration stands in it as a word: its canonical text, up to the
precision, between as many fill characters as are missing to the width, which stand on the side that
the alignment says or are divided; the flags for integers change nothing. An integer that is filled
with spaces reads back once the spaces around it are removed, whatever its flags, its alignment and
its precision are, and takes the width of the field, unless its text is longer. -/
theorem formatting_keeps_text (field : TextField) :
    (∀ d : Duration, ∃ before behind,
      let kept := TextField.keeps field.precision d.text.toList
      field.write (.duration d) =
        List.replicate before field.fill ++ kept ++ List.replicate behind field.fill ∧
      before + behind = field.width - kept.length ∧
      (field.alignment = none ∨ field.alignment = some .left → before = 0) ∧
      (field.alignment = some .right → behind = 0) ∧
      (field.alignment = some .center → before = (before + behind) / 2) ∧
      ∀ plus zeros, { field with plus := plus, zeros := zeros }.write (.duration d) =
        field.write (.duration d)) ∧
    (field.fill = ' ' → ∀ n : Int64,
      let unpadded := (if field.plus ∧ 0 ≤ n.toInt then ['+'] else []) ++ (Value.integer n).chars
      IntegerLiteral.parse (String.ofList (TextField.trimSpaces (field.write (.integer n)))) =
        .ok n ∧
      (field.write (.integer n)).length = max field.width unpadded.length) := by
  constructor
  · intro d
    have hkept : field.write (.duration d) =
        field.place .left (TextField.keeps field.precision d.text.toList) := by
      rw [Duration.text, String.toList_ofList]
      cases hprecision : field.precision <;>
        simp only [TextField.write, TextField.word, hprecision, TextField.keeps]
    generalize TextField.keeps field.precision d.text.toList = kept at *
    have hmargins := (field.alignment.getD .left).margins_add (field.width - kept.length)
    refine ⟨_, _, hkept.trans (field.place_eq .left kept), hmargins, ?_, ?_, ?_, ?_⟩
    · rintro (halignment | halignment) <;> rw [halignment] <;> rfl
    · intro halignment
      rw [halignment]
      rfl
    · intro halignment
      rw [hmargins, halignment]
      rfl
    · intro plus zeros
      rfl
  · intro hfill n unpadded
    obtain ⟨k, htrim⟩ := TextField.exists_trimSpaces_integer hfill n.toInt
    have hlength := field.length_integer n.toInt
    rw [TextField.signOf_append_digits] at hlength
    refine ⟨IntegerLiteral.parse_eq_ok_of_read? ?_, hlength⟩
    rw [String.toList_ofList, TextField.write, htrim]
    exact IntegerLiteral.read?_signOf field.plus n k

/-- The least integer with zeros between its sign and its digits, and an hour cut to three
characters between more spaces behind it than in front of it. -/
theorem formatting_keeps_text_of_least :
    let field : TextField :=
      { alignment := some .center, plus := true, zeros := true, width := 24, precision := some 3 }
    (field.fill = ' ' ∧
      field.write (.integer Int64.minValue) = "-00009223372036854775808".toList ∧
      IntegerLiteral.parse (String.ofList
        (TextField.trimSpaces (field.write (.integer Int64.minValue)))) = .ok Int64.minValue ∧
      (field.write (.integer Int64.minValue)).length = 24) ∧
    field.alignment = some .center ∧ ∃ before behind,
      field.write (.duration ⟨3600000000000⟩) =
        List.replicate before ' ' ++ "1h0".toList ++ List.replicate behind ' ' ∧
      before + behind = 21 ∧ before = 10 := by
  intro field
  obtain ⟨hduration, hinteger⟩ := formatting_keeps_text field
  have hfill : field.fill = ' ' := rfl
  have hwritten : field.write (.integer Int64.minValue) = "-00009223372036854775808".toList := by
    decide
  obtain ⟨hparse, hlength⟩ := hinteger hfill Int64.minValue
  have halignment : field.alignment = some .center := rfl
  obtain ⟨before, behind, htext, hmissing, -, -, hcenter, -⟩ := hduration ⟨3600000000000⟩
  have hkept : TextField.keeps field.precision (Duration.text ⟨3600000000000⟩).toList =
      "1h0".toList := by decide
  rw [hkept] at htext hmissing
  have hmissing' : before + behind = 21 := hmissing
  have hbefore := hcenter halignment
  refine ⟨⟨hfill, hwritten, hparse, ?_⟩, halignment, before, behind, htext, hmissing', by omega⟩
  exact hlength.trans (by decide)

/-- A width counts characters, of which a micro sign is one. -/
example :
    ({ fill := 'µ', alignment := some .center, width := 8 } : TextField).write (.duration ⟨1500⟩) =
      "µ1.5µsµµ".toList := by
  decide

/-! ## Flags -/

/-- The character that asks for an alignment. -/
def Alignment.mark : Alignment → Char
  | left => '<'
  | right => '>'
  | center => '^'

namespace TextField

theorem alignment?_eq_some_iff {c : Char} {alignment : Alignment} :
    alignment? c = some alignment ↔ c = alignment.mark := by
  constructor
  · intro h
    unfold alignment? at h
    split at h <;> cases h <;> rfl
  · rintro rfl
    cases alignment <;> rfl

/-- The flags that say where a text stands, and between which characters. A fill character needs an
alignment behind it, and may be the mark of one itself. -/
inductive Aligns : List Char → Char → Option Alignment → Prop where
  | usual : Aligns [] ' ' none
  | aligned (alignment : Alignment) : Aligns [alignment.mark] ' ' (some alignment)
  | filled (fill : Char) (alignment : Alignment) :
      Aligns [fill, alignment.mark] fill (some alignment)

/-- The flags that only integers heed. -/
def integerFlags (plus zeros : Bool) : List Char :=
  (if plus then ['+'] else []) ++ (if zeros then ['0'] else [])

/-- No alignment is read in the flags for integers. -/
theorem alignment?_of_mem_integerFlags {plus zeros : Bool} {c : Char}
    (h : c ∈ integerFlags plus zeros) : alignment? c = none := by
  have hflag : c = '+' ∨ c = '0' := by
    cases plus <;> cases zeros <;> simp [integerFlags] at h <;> tauto
  rcases hflag with rfl | rfl <;> rfl

/-- What says where a text stands is told from the flags behind it. -/
theorem readAlignment_append {front : List Char} {fill : Char} {alignment : Option Alignment}
    (h : Aligns front fill alignment) (plus zeros : Bool) :
    readAlignment (front ++ integerFlags plus zeros) =
      ({ fill := fill, alignment := alignment }, integerFlags plus zeros) := by
  have hnone : (integerFlags plus zeros).head?.bind alignment? = none := by
    cases hhead : (integerFlags plus zeros).head? with
    | none => rfl
    | some c => exact alignment?_of_mem_integerFlags (List.mem_of_mem_head? hhead)
  cases h with
  | usual =>
      -- a flag for integers is neither an alignment nor a fill character in front of one
      cases plus <;> cases zeros <;> rfl
  | aligned alignment =>
      have hmark : alignment? alignment.mark = some alignment := alignment?_eq_some_iff.2 rfl
      rw [List.singleton_append, readAlignment, hnone]
      simp only [hmark]
  | filled fill alignment =>
      have hmark : alignment? alignment.mark = some alignment := alignment?_eq_some_iff.2 rfl
      simp [readAlignment, hmark]

/-- What is read in front of the rest says where a text stands. -/
theorem exists_aligns (flags : List Char) :
    ∃ front fill alignment, Aligns front fill alignment ∧
      flags = front ++ (readAlignment flags).2 ∧
      (readAlignment flags).1 = { fill := fill, alignment := alignment } := by
  cases flags with
  | nil => exact ⟨[], ' ', none, .usual, rfl, rfl⟩
  | cons c rest =>
      rw [readAlignment]
      cases hnext : rest.head?.bind alignment? with
      | some alignment =>
          obtain ⟨mark, hmark, halignment⟩ := Option.bind_eq_some_iff.1 hnext
          obtain ⟨behind, rfl⟩ := List.head?_eq_some_iff.1 hmark
          obtain rfl := alignment?_eq_some_iff.1 halignment
          exact ⟨_, c, some alignment, .filled c alignment, rfl, rfl⟩
      | none =>
          cases hfirst : alignment? c with
          | some alignment =>
              obtain rfl := alignment?_eq_some_iff.1 hfirst
              exact ⟨_, ' ', some alignment, .aligned alignment, rfl, rfl⟩
          | none => exact ⟨[], ' ', none, .usual, rfl, rfl⟩

/-- Flags are read exactly as they are written: where the text stands, and between which characters;
then the sign; then the zeros. They say nothing of the width and the precision. -/
theorem ofFlags?_eq_some_iff {flags : List Char} {field : TextField} :
    ofFlags? flags = some field ↔
      ∃ front, Aligns front field.fill field.alignment ∧
        flags = front ++ integerFlags field.plus field.zeros ∧
        field.width = 0 ∧ field.precision = none := by
  constructor
  · intro h
    obtain ⟨front, fill, alignment, haligns, hflags, hfield⟩ := exists_aligns flags
    refine ⟨front, ?_⟩
    unfold ofFlags? at h
    generalize readAlignment flags = read at *
    obtain ⟨field', rest⟩ := read
    obtain rfl : field' = { fill := fill, alignment := alignment } := hfield
    dsimp only at h hflags
    split at h <;> cases h <;> exact ⟨haligns, hflags, rfl, rfl⟩
  · rintro ⟨front, haligns, rfl, hwidth, hprecision⟩
    obtain ⟨fill, alignment, plus, zeros, width, precision⟩ := field
    dsimp only at haligns hwidth hprecision ⊢
    subst hwidth hprecision
    rw [ofFlags?, readAlignment_append haligns]
    cases plus <;> cases zeros <;> rfl

/-- A fill character may be the mark of an alignment, and a zero is one in front of an alignment
only. -/
example :
    ofFlags? "<^+".toList = some { fill := '<', alignment := some .center, plus := true } ∧
      ofFlags? "0<".toList = some { fill := '0', alignment := some .left } ∧
      ofFlags? "<0".toList = some { alignment := some .left, zeros := true } ∧
      ofFlags? "0+".toList = none := by
  decide

end TextField

end DurationCalculator
