import DurationCalculator.Decimal
import DurationCalculator.Token.Basic

/-!
# Scanning

The scanner reads an expression one character at a time. Its phase records the
literal that has been begun; a step consumes one character and gives out the tokens
that the character completes. No step looks ahead: `m` opens a phase in which the
next character decides between minutes and milliseconds. Reading a text in two parts
is reading it at once (`read_append`).

Positions are byte offsets into the expression.
-/

set_option autoImplicit false

namespace DurationCalculator

/-- Why an expression has no tokens. -/
inductive ScanError where
  /-- No token starts with the character. -/
  | unexpectedCharacter (character : Char) (position : Nat)
  /-- A literal goes on with something other than a digit or a unit. -/
  | expectedDigit (character : Char) (position : Nat)
  /-- The second character of the unit that starts with `unit` is not `s`. -/
  | invalidUnitCharacter (unit character : Char) (position : Nat)
  /-- The input ends in a literal that still needs a unit. -/
  | unexpectedEndOfInput (position : Nat)
deriving DecidableEq

/-- The message for the user. -/
def ScanError.message (e : ScanError) : String :=
  let place (position : Nat) : String :=
    "Error at position " ++ String.ofList (Decimal.digits position) ++ ": "
  match e with
  | .unexpectedCharacter c p => place p ++ "Unexpected character '" ++ c.toString ++ "'."
  | .expectedDigit c p => place p ++ "Expected digit, but got '" ++ c.toString ++ "'."
  | .invalidUnitCharacter unit c p =>
      place p ++ "Invalid character for " ++
        (if unit = 'u' then "microseconds" else "nanoseconds") ++ " '" ++ c.toString ++ "'."
  | .unexpectedEndOfInput p => place p ++ "Unexpected end of input inside a value."

namespace Scan

/-- What has been read of the token under way. -/
inductive Phase where
  /-- Between tokens. -/
  | blank
  /-- The digits `text`, with a decimal separator among them or not. -/
  | number (text : String) (separated : Bool)
  /-- The literal `text`, which ends in `m`: minutes, unless an `s` follows. -/
  | minutes (text : String)
  /-- The literal `text`, which ends in `unit`, the first letter of `us` or `ns`. -/
  | halfUnit (text : String) (unit : Char)
deriving DecidableEq

/-- The tokens that a step completes, and the phase after it. -/
abbrev Step := List Token × Phase

/-! ## Steps -/

/-- The token that a character is on its own. -/
def symbol? : Char → Option Token
  | '+' => some .plus
  | '-' => some .minus
  | '*' => some .star
  | '/' => some .slash
  | '(' => some .leftParenthesis
  | ')' => some .rightParenthesis
  | _ => none

/-- The step on a character that starts something new. -/
def begin (position : Nat) (c : Char) : Except ScanError Step :=
  if c = ' ' then .ok ([], .blank)
  else if c.isDigit then .ok ([], .number (String.singleton c) false)
  else
    match symbol? c with
    | some token => .ok ([token], .blank)
    | none => .error (.unexpectedCharacter c position)

/-- The step on a character behind the digits `text`. An integer ends in front of a
space or of a token that is one character. -/
def continueNumber (text : String) (separated : Bool) (position : Nat) (c : Char) :
    Except ScanError Step :=
  let longer := text.push c
  if c.isDigit then .ok ([], .number longer separated)
  else if c = 'h' ∨ c = 's' then .ok ([.literal (.duration longer)], .blank)
  else if c = 'm' then .ok ([], .minutes longer)
  else if c = 'u' ∨ c = 'n' then .ok ([], .halfUnit longer c)
  else if separated then .error (.expectedDigit c position)
  else if DurationLiteral.isSeparator c then .ok ([], .number longer true)
  else if c = ' ' then .ok ([.literal (.integer text)], .blank)
  else
    match symbol? c with
    | some token => .ok ([.literal (.integer text), token], .blank)
    | none => .error (.expectedDigit c position)

/-- The step on the character `c` at byte `position`. -/
def step (position : Nat) (c : Char) : Phase → Except ScanError Step
  | .blank => begin position c
  | .number text separated => continueNumber text separated position c
  | .minutes text =>
      if c = 's' then .ok ([.literal (.duration (text.push c))], .blank)
      else (begin position c).map fun (tokens, next) =>
        (.literal (.duration text) :: tokens, next)
  | .halfUnit text unit =>
      if c = 's' then .ok ([.literal (.duration (text.push c))], .blank)
      else .error (.invalidUnitCharacter unit c position)

/-- The tokens that the end of the input completes, with the token for the end. -/
def finish (position : Nat) : Phase → Except ScanError (List Token)
  | .blank => .ok [.endOfInput]
  | .number text separated =>
      if separated then .error (.unexpectedEndOfInput position)
      else .ok [.literal (.integer text), .endOfInput]
  | .minutes text => .ok [.literal (.duration text), .endOfInput]
  | .halfUnit _ _ => .error (.unexpectedEndOfInput position)

/-! ## Texts -/

/-- The number of bytes that the characters take. -/
def byteLength : List Char → Nat
  | [] => 0
  | c :: rest => c.utf8Size + byteLength rest

/-- Reads the characters from byte `position` on: the tokens completed on the way, and
the phase behind the last character. -/
def read (position : Nat) (phase : Phase) : List Char → Except ScanError Step
  | [] => .ok ([], phase)
  | c :: rest =>
      match step position c phase with
      | .error e => .error e
      | .ok (tokens, next) =>
          (read (position + c.utf8Size) next rest).map fun (more, last) =>
            (tokens ++ more, last)

/-- Reading two texts goes on with the second where the first has ended. -/
theorem read_append (xs ys : List Char) (position : Nat) (phase : Phase) :
    read position phase (xs ++ ys) =
      match read position phase xs with
      | .error e => .error e
      | .ok (tokens, next) =>
          (read (position + byteLength xs) next ys).map fun (more, last) =>
            (tokens ++ more, last) := by
  induction xs generalizing position phase with
  | nil => cases h : read position phase ys <;> simp [read, byteLength, h, Except.map]
  | cons x xs ih =>
      simp only [List.cons_append, read]
      cases step position x phase with
      | error e => rfl
      | ok now =>
          simp only [ih, byteLength, Nat.add_assoc]
          cases read (position + x.utf8Size) now.2 xs with
          | error e => rfl
          | ok later =>
              simp only [Except.map]
              cases read (position + (x.utf8Size + byteLength xs)) later.2 ys with
              | error e => rfl
              | ok last => simp

end Scan

/-- The tokens of an expression, ending with the token for the end of the input; or
the first error. -/
def scan (source : String) : Except ScanError (List Token) :=
  match Scan.read 0 .blank source.toList with
  | .error e => .error e
  | .ok (tokens, phase) =>
      (Scan.finish (Scan.byteLength source.toList) phase).map (tokens ++ ·)

end DurationCalculator
