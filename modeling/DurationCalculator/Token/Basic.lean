import DurationCalculator.Literal

/-!
# Tokens

The lexical units of an expression, and the operators that some of them write. A
literal keeps its text, classified by what it will be parsed into; it has no value
before it is evaluated. The operators have no precedence: what an operator is applied
to is the evaluation's matter, and on which kinds it is defined that of the
arithmetic on values.
-/

set_option autoImplicit false

namespace DurationCalculator

/-! ## Operators -/

/-- A binary arithmetic operator. -/
inductive Operator where
  | add
  | sub
  | mul
  | div
deriving DecidableEq

namespace Operator

/-- The character that writes the operator. -/
def symbol : Operator → Char
  | add => '+'
  | sub => '-'
  | mul => '*'
  | div => '/'

end Operator

/-! ## Tokens -/

/-- The text of a literal. -/
inductive Literal where
  /-- A number and exactly one unit, such as `1h` or `0,5ms`. -/
  | duration (text : String)
  /-- Digits only, such as `4`. -/
  | integer (text : String)
deriving DecidableEq

/-- The text of a literal, as it stands in the expression. -/
def Literal.text : Literal → String
  | duration text => text
  | integer text => text

/-- A lexical unit. -/
inductive Token where
  | literal (l : Literal)
  | plus
  | minus
  | star
  | slash
  | leftParenthesis
  | rightParenthesis
  /-- Spaces between tokens; skipped, so no scanned expression holds it. -/
  | whitespace
  /-- The token behind the last one of every scanned expression. -/
  | endOfInput
deriving DecidableEq

namespace Token

/-- How messages name the token. -/
def description : Token → String
  | literal l => "'" ++ l.text ++ "'"
  | plus => "'+'"
  | minus => "'-'"
  | star => "'*'"
  | slash => "'/'"
  | leftParenthesis => "'('"
  | rightParenthesis => "')'"
  | whitespace => "whitespace"
  | endOfInput => "end of input"

/-- The binary operator that a token writes. -/
def operator? : Token → Option Operator
  | plus => some .add
  | minus => some .sub
  | star => some .mul
  | slash => some .div
  | _ => none

end Token

end DurationCalculator
