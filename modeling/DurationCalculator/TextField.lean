import DurationCalculator.Value.Basic

/-!
# Text fields

A value written into a field of a given width. Widths and precisions count
characters. A word is cut to the precision and stands at the left unless the field
says otherwise. An integer is never cut and stands at the right; it may show a plus
sign, and zeros may fill the field between its sign and its digits.
-/

set_option autoImplicit false

namespace DurationCalculator

/-- Where a text stands in a field that is wider. -/
inductive Alignment where
  | left
  | right
  | center
deriving DecidableEq

/-- The layout of a field. -/
structure TextField where
  /-- The character on both sides of the text. -/
  fill : Char := ' '
  /-- The alignment, when it is not the usual one of the value. -/
  alignment : Option Alignment := none
  /-- Integers that are not negative show a plus sign. -/
  plus : Bool := false
  /-- Zeros between sign and digits fill the field of an integer. -/
  zeros : Bool := false
  width : Nat := 0
  precision : Option Nat := none
deriving DecidableEq

/-- How many of `missing` characters stand before a text and how many behind it; of
an odd number, the larger half stands behind a centred text. -/
def Alignment.margins (missing : Nat) : Alignment → Nat × Nat
  | left => (0, missing)
  | right => (missing, 0)
  | center => (missing / 2, missing - missing / 2)

namespace TextField

/-! ## Writing -/

/-- Fills the field up on both sides of a text. -/
def place (field : TextField) (usual : Alignment) (text : List Char) : List Char :=
  let (before, behind) := (field.alignment.getD usual).margins (field.width - text.length)
  List.replicate before field.fill ++ text ++ List.replicate behind field.fill

/-- Writes a word. -/
def word (field : TextField) (text : List Char) : List Char :=
  field.place .left (match field.precision with
    | none => text
    | some p => text.take p)

/-- Writes an integer. -/
def integer (field : TextField) (n : Int) : List Char :=
  let sign := if n < 0 then ['-'] else if field.plus then ['+'] else []
  let digits := Decimal.digits n.natAbs
  if field.zeros then
    sign ++ List.replicate (field.width - (sign.length + digits.length)) '0' ++ digits
  else field.place .right (sign ++ digits)

/-- Writes a value: a duration as a word, an integer as an integer. -/
def write (field : TextField) : Value → List Char
  | .duration d => field.word d.chars
  | .integer n => field.integer n.toInt

/-! ## Flags -/

/-- The alignment that a character stands for. -/
def alignment? : Char → Option Alignment
  | '<' => some .left
  | '>' => some .right
  | '^' => some .center
  | _ => none

/-- Reads an alignment with a fill character in front of it or none, and gives what
follows. -/
def readAlignment : List Char → TextField × List Char
  | [] => ({}, [])
  | c :: rest =>
      match rest.head?.bind alignment? with
      | some a => ({ fill := c, alignment := some a }, rest.tail)
      | none =>
          match alignment? c with
          | some a => ({ alignment := some a }, rest)
          | none => ({}, c :: rest)

/-- Reads fill, alignment, `+` for the sign and `0` for the zeros, each of them
optional and in this order. -/
def ofFlags? (flags : List Char) : Option TextField :=
  let (field, rest) := readAlignment flags
  match rest with
  | [] => some field
  | ['+'] => some { field with plus := true }
  | ['0'] => some { field with zeros := true }
  | ['+', '0'] => some { field with plus := true, zeros := true }
  | _ => none

end TextField

end DurationCalculator
