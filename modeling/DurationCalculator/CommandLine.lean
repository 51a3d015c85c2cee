import DurationCalculator.Calculation

/-!
# Command line

Options stand in front of the expression: `-p` or `--printer` with the name of a line
format, `-h` or `--help`, `-V` or `--version`. The first argument that is no option
begins the expression, and all arguments from there on belong to it, joined without a
separator. `--` in front of the expression is dropped and ends the options.
-/

set_option autoImplicit false

namespace DurationCalculator.CommandLine

/-- What an argument in front of the expression means. -/
inductive Argument where
  /-- It begins the expression. -/
  | expression
  /-- It ends the options. -/
  | endOfOptions
  | help
  | version
  /-- The printer option, with the name in the next argument. -/
  | printer
  /-- The printer option, with the name attached. -/
  | printerNamed (name : String)
  /-- An option with a value that it does not take. -/
  | malformed
deriving DecidableEq

/-- What the command line asks for. -/
inductive Action where
  | calculate (format : Option LineFormat) (expression : String)
  | help
  | version
  | usageError
deriving DecidableEq

/-- What the program leaves behind. -/
structure Response where
  status : Nat
  stdout : String
  stderr : String
deriving DecidableEq

/-- The texts that only inform about the usage. -/
structure Texts where
  help : String
  usageError : String

/-! ## Arguments -/

/-- The letters that are options behind one hyphen. -/
def isOptionLetter (c : Char) : Bool := c = 'p' || c = 'h' || c = 'V'

/-- The meaning of the letters behind one hyphen. They are options only when each of
them is one; the name of a printer may be attached to its letter. -/
def ofLetters (letters : List Char) : Argument :=
  if letters.all isOptionLetter then
    match letters with
    | [] => .expression
    | 'h' :: _ => .help
    | 'V' :: _ => .version
    | ['p'] => .printer
    | _ :: name => .printerNamed (String.ofList name)
  else .expression

/-- The meaning of the text behind two hyphens. A value may be attached with `=`. -/
def ofWord (word : List Char) : Argument :=
  let name := word.takeWhile (· != '=')
  let value := word.dropWhile (· != '=')
  if name = "help".toList then if value.isEmpty then .help else .malformed
  else if name = "version".toList then if value.isEmpty then .version else .malformed
  else if name = "printer".toList then
    match value with
    | [] => .printer
    | _ :: text => .printerNamed (String.ofList text)
  else if word.isEmpty then .endOfOptions
  else .expression

/-- The meaning of an argument in front of the expression. -/
def Argument.ofString (arg : String) : Argument :=
  match arg.toList with
  | '-' :: '-' :: word => ofWord word
  | '-' :: letters => ofLetters letters
  | _ => .expression

/-- Reads the arguments, where the options so far have chosen `format`. The printer
may be chosen once. -/
def parse (format : Option LineFormat) : List String → Action
  | [] => .calculate format ""
  | arg :: rest =>
      match Argument.ofString arg with
      | .expression => .calculate format (String.join (arg :: rest))
      | .endOfOptions => .calculate format (String.join rest)
      | .help => .help
      | .version => .version
      | .malformed => .usageError
      | .printerNamed name =>
          match LineFormat.ofName? name, format with
          | some chosen, none => parse (some chosen) rest
          | _, _ => .usageError
      | .printer =>
          match rest with
          | [] => .usageError
          | name :: rest =>
              match LineFormat.ofName? name, format with
              | some chosen, none => parse (some chosen) rest
              | _, _ => .usageError

/-! ## Responses -/

/-- The line that names the program and its version. -/
def versionLine : String := "dur 0.1.0\n"

/-- The printer of the chosen format. -/
def printerOf : Option LineFormat → Printer
  | none => .discard
  | some format => .print format

/-- Calculates an expression. The lines of its operations come first, and stay also
when the calculation fails. -/
def answer (format : Option LineFormat) (expression : String) : Response :=
  let calculation := calculate (printerOf format) expression
  match calculation.result with
  | .ok d => ⟨0, calculation.output ++ d.text ++ "\n", ""⟩
  | .error e => ⟨1, calculation.output, e.message ++ "\n"⟩

/-- Does what the command line asks for. Without an expression it shows the help, as
a failure. -/
def perform (texts : Texts) : Action → Response
  | .calculate format expression =>
      if expression.isEmpty then ⟨2, texts.help, ""⟩ else answer format expression
  | .help => ⟨0, texts.help, ""⟩
  | .version => ⟨0, versionLine, ""⟩
  | .usageError => ⟨2, "", texts.usageError⟩

/-- The response to a command line. -/
def respond (texts : Texts) (args : List String) : Response := perform texts (parse none args)

end DurationCalculator.CommandLine
