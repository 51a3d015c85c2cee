import DurationCalculator.Calculation
import DurationCalculator.Proofs.Duration.Canonical
import DurationCalculator.Proofs.Grammar.Meaning
import DurationCalculator.Proofs.TextField

/-!
# The lines of a trace

A line writes each value as a word, at the right of its columns, with the operator and an equals
sign between spaces. Words have no spaces and no ends of lines in them, so every word can be told
from what follows it, however wide it is (`RightAligned.eq_of_append`), and with it every row
(`eq_of_row_append`) and every trace (`map_eq_of_lines_eq`). What the lines say of an operation is
then what the words say of its values. Canonical texts say all, since durations and integers share
none of them; raw counts do not say the kinds (`trace_output_lossless`). The text of an operation
is a row without columns, and says all as well (`Operation.text_injective`).
-/

set_option autoImplicit false

namespace DurationCalculator

/-! ## Words -/

/-- One or more characters, none of which is a space or the end of a line. -/
structure IsWord (text : List Char) : Prop where
  ne_nil : text ≠ []
  unbroken : ∀ c ∈ text, c ≠ ' ' ∧ c ≠ '\n'

theorem IsWord.cons {c : Char} {text : List Char} (hc : c ≠ ' ' ∧ c ≠ '\n') (h : IsWord text) :
    IsWord (c :: text) := by
  refine ⟨List.cons_ne_nil c text, ?_⟩
  intro d hd
  rcases List.mem_cons.1 hd with rfl | hd
  · exact hc
  · exact h.unbroken d hd

/-- No space stands in front of a word. -/
theorem IsWord.head?_append {text : List Char} (h : IsWord text) (rest : List Char) :
    ∀ c ∈ (text ++ rest).head?, ¬(c == ' ') := by
  intro c hc hspace
  rw [List.head?_append_of_ne_nil _ h.ne_nil] at hc
  exact (h.unbroken c (List.mem_of_mem_head? hc)).1 (beq_iff_eq.1 hspace)

theorem Decimal.ofInt_ne_nil (n : Int) : ofInt n ≠ [] := by
  unfold ofInt
  split_ifs
  · exact List.cons_ne_nil _ _
  · exact digits_ne_nil n.natAbs

/-- The text of an integer has digits and a minus sign in it, and no letters. -/
theorem Decimal.mem_ofInt {n : Int} {c : Char} (h : c ∈ ofInt n) : c = '-' ∨ c.isDigit := by
  unfold ofInt at h
  split_ifs at h
  · rcases List.mem_cons.1 h with rfl | hc
    · exact .inl rfl
    · exact .inr (isDigit_of_mem_digits hc)
  · exact .inr (isDigit_of_mem_digits h)

theorem isWord_ofInt (n : Int) : IsWord (Decimal.ofInt n) := by
  refine ⟨Decimal.ofInt_ne_nil n, ?_⟩
  intro c hc
  rcases Decimal.mem_ofInt hc with rfl | hdigit
  · decide
  · exact ⟨Decimal.ne_of_isDigit hdigit rfl, Decimal.ne_of_isDigit hdigit rfl⟩

namespace Duration

theorem Part.WellFormed.unbroken {p : Part} (h : p.WellFormed) :
    ∀ c ∈ p.chars, c ≠ ' ' ∧ c ≠ '\n' := by
  intro c hc
  rcases List.mem_append.1 hc with hc | hc
  · have hamount := h.isAmountChar c hc
    constructor
    · rintro rfl
      exact absurd hamount (by decide)
    · rintro rfl
      exact absurd hamount (by decide)
  · have hletters : p.unit.symbol.all fun c => c ≠ ' ' && c ≠ '\n' := by
      cases p.unit <;> decide
    simpa using List.all_eq_true.1 hletters c hc

/-- Every text names seconds or parts of them. -/
theorem mem_magnitudeText (n : Nat) : 's' ∈ magnitudeText n := by
  unfold magnitudeText clockText
  dsimp only
  split_ifs <;> simp

theorem isWord_magnitudeText (n : Nat) : IsWord (magnitudeText n) := by
  refine ⟨List.ne_nil_of_mem (mem_magnitudeText n), ?_⟩
  intro c hc
  rw [magnitudeText_eq_charsOf] at hc
  obtain ⟨p, hp, hmem⟩ := List.mem_flatMap.1 hc
  exact (wellFormed_of_mem_partsOf p hp).unbroken c hmem

theorem isWord_chars (d : Duration) : IsWord d.chars := by
  unfold chars
  split_ifs
  · exact (isWord_magnitudeText _).cons (by decide)
  · exact isWord_magnitudeText _

theorem mem_chars (d : Duration) : 's' ∈ d.chars := by
  unfold chars
  split_ifs
  · exact List.mem_cons_of_mem '-' (mem_magnitudeText _)
  · exact mem_magnitudeText _

theorem chars_injective {d d' : Duration} (h : d.chars = d'.chars) : d = d' :=
  count_inj.1 (signedText_injective h)

end Duration

/-! ## Words of values -/

/-- The text of an integer is the literal of one integer. -/
theorem Decimal.ofInt_injective {n m : Int64} (h : ofInt n.toInt = ofInt m.toInt) : n = m := by
  have hread (k : Int64) : IntegerLiteral.read? (ofInt k.toInt) = some k := by
    have hsigned := IntegerLiteral.read?_signOf false k 0
    rwa [List.replicate_zero, List.nil_append, TextField.signOf_append_digits] at hsigned
  have hsame := hread n
  rw [h, hread m] at hsame
  exact (Option.some.inj hsame).symm

theorem Decimal.notMem_ofInt (n : Int) : 's' ∉ ofInt n := by
  intro hletter
  rcases mem_ofInt hletter with hminus | hdigit
  · exact absurd hminus (by decide)
  · exact ne_of_isDigit hdigit rfl rfl

namespace LineFormat

/-- The fewest columns that a value takes. -/
def width : LineFormat → Nat
  | readable => 12
  | raw => 18

/-- The word that stands for a value. -/
def word (v : Value) : LineFormat → List Char
  | readable => v.chars
  | raw => Decimal.ofInt v.raw.toInt

theorem isWord_word (format : LineFormat) (v : Value) : IsWord (format.word v) := by
  cases format with
  | readable =>
      cases v with
      | duration d => exact d.isWord_chars
      | integer n => exact isWord_ofInt n.toInt
  | raw => exact isWord_ofInt v.raw.toInt

/-- Canonical words are those of one value. No integer has a unit. -/
theorem word_readable_injective : Function.Injective readable.word := by
  intro v w h
  cases v with
  | duration d =>
      cases w with
      | duration d' => rw [Duration.chars_injective h]
      | integer m =>
          have hchars : d.chars = Decimal.ofInt m.toInt := h
          have hunit := d.mem_chars
          rw [hchars] at hunit
          exact absurd hunit (Decimal.notMem_ofInt _)
  | integer n =>
      cases w with
      | duration d' =>
          have hchars : Decimal.ofInt n.toInt = d'.chars := h
          have hunit := d'.mem_chars
          rw [← hchars] at hunit
          exact absurd hunit (Decimal.notMem_ofInt _)
      | integer m => rw [Decimal.ofInt_injective h]

/-- Raw words are those of one count. -/
theorem factorsThrough_word_raw : Value.raw.FactorsThrough raw.word := by
  intro v w h
  exact Decimal.ofInt_injective h

end LineFormat

/-! ## Columns -/

/-- A text at the right of `width` columns, or of as many as it needs. -/
structure RightAligned (width : Nat) (text field : List Char) : Prop where
  exists_spaces : ∃ k, field = List.replicate k ' ' ++ text
  length_eq : field.length = max width text.length

/-- A field at the right that shows no plus sign and no zeros. -/
def TextField.rightward (width : Nat) : TextField :=
  { alignment := some .right, width := width }

theorem TextField.rightAligned_rightward (width : Nat) (usual : Alignment) (text : List Char) :
    RightAligned width text ((rightward width).place usual text) := by
  refine ⟨⟨width - text.length, ?_⟩, (rightward width).length_place usual text⟩
  rw [place_eq]
  exact List.append_nil _

theorem LineFormat.rightAligned_column (format : LineFormat) (v : Value) :
    RightAligned format.width (format.word v) (format.column v) := by
  have hinteger (width : Nat) (n : Int) :
      RightAligned width (Decimal.ofInt n) ((TextField.rightward width).integer n) := by
    have htext : TextField.signOf false n ++ Decimal.digits n.natAbs = Decimal.ofInt n :=
      TextField.signOf_append_digits false n
    have hwritten := TextField.rightAligned_rightward width .right (Decimal.ofInt n)
    rwa [← htext] at hwritten ⊢
  cases format with
  | readable =>
      cases v with
      | duration d => exact TextField.rightAligned_rightward 12 .left d.chars
      | integer n => exact hinteger 12 n.toInt
  | raw => exact hinteger 18 v.raw.toInt

/-- A word at the right of its columns can be told from what follows it. -/
theorem RightAligned.eq_of_append {width : Nat} {text text' field field' rest rest' : List Char}
    {stop : Char} (hfield : RightAligned width text field)
    (hfield' : RightAligned width text' field') (htext : IsWord text) (htext' : IsWord text')
    (hstop : stop = ' ' ∨ stop = '\n') (h : field ++ stop :: rest = field' ++ stop :: rest') :
    text = text' ∧ rest = rest' := by
  obtain ⟨k, rfl⟩ := hfield.exists_spaces
  obtain ⟨k', rfl⟩ := hfield'.exists_spaces
  have hletters {word : List Char} (hword : IsWord word) :
      ∀ c ∈ word, (c != ' ' && c != '\n') := by
    intro c hc
    simpa using hword.unbroken c hc
  have hend (following : List Char) :
      ∀ c ∈ (stop :: following).head?, ¬(c != ' ' && c != '\n') := by
    intro c hc
    obtain rfl : stop = c := by simpa using hc
    rcases hstop with rfl | rfl <;> decide
  -- first the spaces are cut off, then the word, which ends where `stop` stands
  rw [List.append_assoc, List.append_assoc] at h
  obtain ⟨-, hword⟩ :=
    List.span_unique (TextField.isSpace_replicate k) (TextField.isSpace_replicate k')
      (htext.head?_append _) (htext'.head?_append _) h
  obtain ⟨hsame, hrest⟩ :=
    List.span_unique (hletters htext) (hletters htext') (hend rest) (hend rest') hword
  exact ⟨hsame, (List.cons.inj hrest).2⟩

/-! ## Rows -/

theorem Operator.symbol_injective {op op' : Operator} (h : op.symbol = op'.symbol) : op = op' := by
  cases op <;> cases op' <;> first | rfl | exact absurd h (by decide)

/-- An operation with its values in columns. -/
def OperationOn.row (column : Value → List Char) (o : Operation) : List Char :=
  column o.left ++ [' ', o.operator.symbol, ' '] ++ column o.right ++ [' ', '=', ' '] ++
    column o.result

section Row

variable {γ : Type} {what : Value → γ} {width : Nat} {word column : Value → List Char}

theorem row_append (o : Operation) (rest : List Char) :
    o.row column ++ rest =
      column o.left ++ ' ' :: o.operator.symbol :: ' ' ::
        (column o.right ++ ' ' :: '=' :: ' ' :: (column o.result ++ rest)) := by
  simp [OperationOn.row]

/-- A row that ends with its line can be told from what follows it, up to what its words do not say
of their values. -/
theorem eq_of_row_append (hword : ∀ v, IsWord (word v))
    (hcolumn : ∀ v, RightAligned width (word v) (column v)) (hwhat : what.FactorsThrough word)
    {o o' : Operation} {rest rest' : List Char}
    (h : o.row column ++ '\n' :: rest = o'.row column ++ '\n' :: rest') :
    o.map what = o'.map what ∧ rest = rest' := by
  have hvalue {v w : Value} {stop : Char} {rest rest' : List Char}
      (hstop : stop = ' ' ∨ stop = '\n') (h : column v ++ stop :: rest = column w ++ stop :: rest') :
      what v = what w ∧ rest = rest' := by
    obtain ⟨hsame, hrest⟩ := (hcolumn v).eq_of_append (hcolumn w) (hword v) (hword w) hstop h
    exact ⟨hwhat hsame, hrest⟩
  rw [row_append, row_append] at h
  obtain ⟨hleft, hoperator⟩ := hvalue (.inl rfl) h
  obtain ⟨hsymbol, hright⟩ := List.cons.inj hoperator
  obtain ⟨hright, hresult⟩ := hvalue (.inl rfl) (List.cons.inj hright).2
  obtain ⟨hresult, hrest⟩ := hvalue (.inr rfl) (List.cons.inj (List.cons.inj hresult).2).2
  have hsame : o.operator = o'.operator := Operator.symbol_injective hsymbol
  exact ⟨by rw [OperationOn.map, OperationOn.map, hleft, hright, hresult, hsame], hrest⟩

end Row

/-- The text of an operation says all of it, with the kinds of its values. -/
theorem Operation.text_injective : Function.Injective text := by
  intro o o' h
  have hcolumn (v : Value) : RightAligned 0 (LineFormat.readable.word v) v.chars :=
    ⟨⟨0, rfl⟩, (Nat.zero_max _).symm⟩
  have hrow : o.row Value.chars = o'.row Value.chars := String.ofList_injective h
  have hsaid := (eq_of_row_append LineFormat.readable.isWord_word hcolumn
    (LineFormat.word_readable_injective.factorsThrough id) (congrArg (· ++ ['\n']) hrow)).1
  have hsame (o : Operation) : o.map id = o := rfl
  rwa [hsame, hsame] at hsaid

/-! ## Lines -/

namespace LineFormat

/-- A line is a row with the end of the line behind it. -/
theorem line_append (format : LineFormat) (o : Operation) (rest : List Char) :
    format.line o ++ rest = o.row (fun v => format.column v) ++ '\n' :: rest :=
  List.append_assoc _ _ _

section Says

variable {γ : Type} {format : LineFormat} {what : Value → γ}

/-- A line can be told from what follows it, up to what its words do not say of their values. -/
theorem eq_of_line_append (hwhat : what.FactorsThrough format.word) {o o' : Operation}
    {rest rest' : List Char} (h : format.line o ++ rest = format.line o' ++ rest') :
    o.map what = o'.map what ∧ rest = rest' := by
  rw [line_append, line_append] at h
  exact eq_of_row_append format.isWord_word format.rightAligned_column hwhat h

/-- What the words of a trace say of its values can be told from its lines. -/
theorem map_eq_of_lines_eq (hwhat : what.FactorsThrough format.word) {rows others : List Operation}
    (h : rows.flatMap format.line = others.flatMap format.line) :
    rows.map (OperationOn.map what) = others.map (OperationOn.map what) := by
  have hnil (o : Operation) (rest : List Char) : format.line o ++ rest ≠ [] := by
    rw [line_append]
    simp
  -- no line is empty, so both traces end together
  induction rows generalizing others with
  | nil =>
      cases others with
      | nil => rfl
      | cons o others => exact absurd h.symm (hnil o _)
  | cons o rows ih =>
      cases others with
      | nil => exact absurd h (hnil o _)
      | cons o' others =>
          obtain ⟨hline, hrest⟩ := eq_of_line_append hwhat h
          rw [List.map_cons, List.map_cons, hline, ih hrest]

end Says

theorem lines_eq_join (format : LineFormat) (trace : List Operation) :
    format.lines trace = String.join (trace.map fun o => String.ofList (format.line o)) := by
  have hchars : (String.join (trace.map fun o => String.ofList (format.line o))).toList =
      trace.flatMap format.line := by
    simp [List.flatMap_map]
  rw [lines, ← hchars, String.ofList_toList]

/-- A line ends where it says, and not before. -/
theorem count_line (format : LineFormat) (o : Operation) : (format.line o).count '\n' = 1 := by
  have hcolumn (v : Value) : (format.column v).count '\n' = 0 := by
    obtain ⟨k, hfield⟩ := (format.rightAligned_column v).exists_spaces
    rw [List.count_eq_zero, hfield, List.mem_append, not_or]
    constructor
    · intro hmem
      exact absurd (List.eq_of_mem_replicate hmem) (by decide)
    · intro hmem
      exact ((format.isWord_word v).unbroken '\n' hmem).2 rfl
  have hsymbol : o.operator.symbol ≠ '\n' := by
    cases o.operator <;> decide
  simp [line, hcolumn, hsymbol]

end LineFormat

/-! ## Traces -/

/-- What a printer writes for an expression, whether it has a value or not, is one line for each
operation performed, in order. The lines of canonical texts are those of one trace, with the kinds
of its values; the lines of raw counts are those of one sequence of operations on counts. A line
ends where it says and not before, and all its values stand at the right of their columns. -/
theorem trace_output_lossless :
    (∀ (format : LineFormat) (source : String),
      let lines := (evaluate source).trace.map fun o => String.ofList (format.line o)
      (session (.print format) [source]).2 = String.join lines ∧
      (calculate (.print format) source).output = String.join lines) ∧
    (∀ rows others : List Operation,
      (Printer.print .readable).output rows = (Printer.print .readable).output others →
      rows = others) ∧
    (∀ rows others : List Operation,
      (Printer.print .raw).output rows = (Printer.print .raw).output others →
      rows.map (OperationOn.map Value.raw) = others.map (OperationOn.map Value.raw)) ∧
    ∀ (format : LineFormat) (o : Operation), ∃ left right result,
      format.line o = left ++ [' ', o.operator.symbol, ' '] ++ right ++ [' ', '=', ' '] ++
        result ++ ['\n'] ∧
      (format.line o).count '\n' = 1 ∧
      RightAligned format.width (format.word o.left) left ∧
      RightAligned format.width (format.word o.right) right ∧
      RightAligned format.width (format.word o.result) result := by
  have hsaid {γ : Type} {format : LineFormat} {what : Value → γ}
      (hwhat : what.FactorsThrough format.word) {rows others : List Operation}
      (h : (Printer.print format).output rows = (Printer.print format).output others) :
      rows.map (OperationOn.map what) = others.map (OperationOn.map what) :=
    LineFormat.map_eq_of_lines_eq hwhat (String.ofList_injective h)
  refine ⟨?_, ?_, ?_, ?_⟩
  · intro format source lines
    have houtput : (calculate (.print format) source).output = String.join lines :=
      format.lines_eq_join (evaluate source).trace
    have hsession : (session (.print format) [source]).2 =
        (calculate (.print format) source).output := by
      simp [session, calculate]
    exact ⟨hsession.trans houtput, houtput⟩
  · intro rows others h
    have hvalues := hsaid (LineFormat.word_readable_injective.factorsThrough id) h
    have hsame (rows : List Operation) : rows.map (OperationOn.map id) = rows := List.map_id rows
    rwa [hsame, hsame] at hvalues
  · intro rows others h
    exact hsaid LineFormat.factorsThrough_word_raw h
  · intro format o
    exact ⟨_, _, _, rfl, format.count_line o, format.rightAligned_column o.left,
      format.rightAligned_column o.right, format.rightAligned_column o.result⟩

/-- Five nanoseconds twice and five times two nanoseconds have the same raw line. Their canonical
lines differ. -/
theorem trace_output_lossless_of_kinds :
    let rows : List Operation := [⟨.duration ⟨5⟩, .mul, .integer 2, .duration ⟨10⟩⟩]
    let others : List Operation := [⟨.integer 5, .mul, .duration ⟨2⟩, .duration ⟨10⟩⟩]
    ((Printer.print .raw).output rows = (Printer.print .raw).output others ∧
      rows.map (OperationOn.map Value.raw) = others.map (OperationOn.map Value.raw)) ∧
    (Printer.print .readable).output rows ≠ (Printer.print .readable).output others := by
  intro rows others
  obtain ⟨-, hreadable, hraw, -⟩ := trace_output_lossless
  have hsame : (Printer.print .raw).output rows = (Printer.print .raw).output others := by
    decide
  refine ⟨⟨hsame, hraw rows others hsame⟩, ?_⟩
  intro h
  exact absurd (hreadable rows others h) (by decide)

end DurationCalculator
