import DurationCalculator.Proofs.CommandLine.Expression

/-!
# The arguments in front of the expression

An argument that begins with a hyphen is an option only if it is one of a few texts
(`Argument.ofString_eq_iff`); every other one begins the expression. The arguments are read from the
left. At most one of them chooses a printer, and the first one that does not decides what is asked
for, whatever stands behind it (`parse_eq_iff`): the help, the version, the calculation of an
expression, or nothing, where an option is used wrongly. A printer that is chosen a second time,
that has no name or the name of no format is used wrongly.
-/

set_option autoImplicit false

namespace DurationCalculator.CommandLine

/-! ## Texts of options -/

/-- The texts that do not begin an expression, and what they mean. -/
inductive Argument.Spelled : List Char → Argument → Prop where
  | endOfOptions : Spelled "--".toList .endOfOptions
  | help : Spelled "--help".toList .help
  | version : Spelled "--version".toList .version
  | printer : Spelled "--printer".toList .printer
  /-- The name of a format may be attached with an equals sign. -/
  | assigned (name : List Char) :
      Spelled ("--printer=".toList ++ name) (.printerNamed (String.ofList name))
  /-- The other options take no value. -/
  | helpAssigned (value : List Char) : Spelled ("--help=".toList ++ value) .malformed
  | versionAssigned (value : List Char) : Spelled ("--version=".toList ++ value) .malformed
  /-- Letters of options may stand behind one hyphen, and the first of them decides. -/
  | helpLetter {letters : List Char} (h : letters.all isOptionLetter) :
      Spelled ('-' :: 'h' :: letters) .help
  | versionLetter {letters : List Char} (h : letters.all isOptionLetter) :
      Spelled ('-' :: 'V' :: letters) .version
  | printerLetter : Spelled ['-', 'p'] .printer
  /-- What stands behind the letter of the printer is the name of a format. -/
  | attached {c : Char} {letters : List Char} (h : (c :: letters).all isOptionLetter) :
      Spelled ('-' :: 'p' :: c :: letters) (.printerNamed (String.ofList (c :: letters)))

namespace Argument

/-- Letters that are not all options begin an expression. -/
theorem spelled_ofLetters {letters : List Char} (h : ofLetters letters ≠ .expression) :
    Spelled ('-' :: letters) (ofLetters letters) := by
  rw [ofLetters.eq_def] at h ⊢
  split_ifs at h ⊢ with hall
  · cases letters with
    | nil => exact absurd rfl h
    | cons c letters =>
        obtain ⟨hc, hletters⟩ : isOptionLetter c ∧ letters.all isOptionLetter := by
          simpa using hall
        have hletter : c = 'p' ∨ c = 'h' ∨ c = 'V' := by simpa [isOptionLetter, or_assoc] using hc
        rcases hletter with rfl | rfl | rfl
        · cases letters with
          | nil => exact .printerLetter
          | cons d letters => exact .attached hletters
        · exact .helpLetter hletters
        · exact .versionLetter hletters
  · exact absurd rfl h

/-- A word is the text in front of its first equals sign, with that sign and a value behind it or
without. -/
theorem exists_word (word : List Char) :
    ∃ name value, word = name ++ value ∧ (value = [] ∨ ∃ text, value = '=' :: text) ∧
      word.takeWhile (· != '=') = name ∧ word.dropWhile (· != '=') = value := by
  obtain ⟨name, value, rfl, hname, hvalue⟩ := List.exists_span (· != '=') word
  obtain ⟨htake, hdrop⟩ := List.span_append hname hvalue
  refine ⟨name, value, rfl, ?_, htake, hdrop⟩
  cases value with
  | nil => exact .inl rfl
  | cons c text =>
      obtain rfl : c = '=' := by simpa using hvalue c rfl
      exact .inr ⟨text, rfl⟩

/-- Words that are no names of options begin an expression. -/
theorem spelled_ofWord {word : List Char} (h : ofWord word ≠ .expression) :
    Spelled ('-' :: '-' :: word) (ofWord word) := by
  obtain ⟨name, value, hword, hvalue, htake, hdrop⟩ := exists_word word
  unfold ofWord at h ⊢
  simp only [htake, hdrop] at h ⊢
  split_ifs at h ⊢ with hhelp hnone hversion hnone hprinter hempty
  · obtain rfl := List.isEmpty_iff.1 hnone
    rw [hword, hhelp]
    exact .help
  · obtain ⟨text, rfl⟩ := hvalue.resolve_left fun hnil => hnone (List.isEmpty_iff.2 hnil)
    rw [hword, hhelp]
    exact .helpAssigned text
  · obtain rfl := List.isEmpty_iff.1 hnone
    rw [hword, hversion]
    exact .version
  · obtain ⟨text, rfl⟩ := hvalue.resolve_left fun hnil => hnone (List.isEmpty_iff.2 hnil)
    rw [hword, hversion]
    exact .versionAssigned text
  · rw [hword, hprinter]
    rcases hvalue with rfl | ⟨text, rfl⟩
    · exact .printer
    · exact .assigned text
  · rw [List.isEmpty_iff.1 hempty]
    exact .endOfOptions
  · exact absurd rfl h

theorem spelled_ofString {arg : String} (h : ofString arg ≠ .expression) :
    Spelled arg.toList (ofString arg) := by
  rw [ofString.eq_def] at h ⊢
  generalize arg.toList = text at h ⊢
  revert h
  split
  · exact spelled_ofWord
  · exact spelled_ofLetters
  · intro h
    exact absurd rfl h

/-- A value may be assigned to the printer. The other options do not take one, and another name in
front of the equals sign is that of no option. -/
theorem ofWord_assigned {name : List Char} (hname : name.all (· != '=')) (value : List Char) :
    ofWord (name ++ '=' :: value) =
      if name = "help".toList ∨ name = "version".toList then .malformed
      else if name = "printer".toList then .printerNamed (String.ofList value)
      else .expression := by
  obtain ⟨htake, hdrop⟩ := List.span_append (List.all_eq_true.1 hname)
    (by simp : ∀ c ∈ ('=' :: value).head?, ¬c != '=')
  have hword : (name ++ '=' :: value).isEmpty = false := by
    cases name <;> rfl
  simp only [ofWord, htake, hdrop, hword, List.isEmpty_cons, Bool.false_eq_true, if_false]
  by_cases hhelp : name = "help".toList
  · rw [if_pos hhelp, if_pos (.inl hhelp)]
  · by_cases hversion : name = "version".toList
    · rw [if_neg hhelp, if_pos hversion, if_pos (.inr hversion)]
    · rw [if_neg hhelp, if_neg hversion, if_neg (not_or.2 ⟨hhelp, hversion⟩)]

theorem ofString_of_spelled {text : List Char} {argument : Argument} (h : Spelled text argument) :
    ofString (String.ofList text) = argument := by
  rw [ofString.eq_def, String.toList_ofList]
  cases h with
  | endOfOptions => rfl
  | help => rfl
  | version => rfl
  | printer => rfl
  | assigned name =>
      exact ofWord_assigned (by rfl : "printer".toList.all (· != '=')) name
  | helpAssigned value =>
      exact ofWord_assigned (by rfl : "help".toList.all (· != '=')) value
  | versionAssigned value =>
      exact ofWord_assigned (by rfl : "version".toList.all (· != '=')) value
  | helpLetter hletters => exact if_pos (by rw [List.all_cons, hletters]; rfl)
  | versionLetter hletters => exact if_pos (by rw [List.all_cons, hletters]; rfl)
  | printerLetter => rfl
  | attached hletters => exact if_pos (by rw [List.all_cons, hletters]; rfl)

/-- An argument is an option, or ends the options, exactly if it is spelled like one. -/
theorem ofString_eq_iff {arg : String} {argument : Argument} (h : argument ≠ .expression) :
    ofString arg = argument ↔ Spelled arg.toList argument := by
  constructor
  · rintro rfl
    exact spelled_ofString h
  · intro hspelled
    rw [← ofString_of_spelled hspelled, String.ofList_toList]

end Argument

/-! ## Decisions -/

/-- What the arguments ask for that stand behind a printer option, or behind none. The first of them
decides, except that a printer option takes its name from the next one. -/
inductive Decides (format : Option LineFormat) : List String → Action → Prop where
  | nothing : Decides format [] (.calculate format "")
  | expression {arg : String} (h : Argument.ofString arg = .expression) (rest : List String) :
      Decides format (arg :: rest) (.calculate format (String.join (arg :: rest)))
  | endOfOptions {arg : String} (h : Argument.ofString arg = .endOfOptions) (rest : List String) :
      Decides format (arg :: rest) (.calculate format (String.join rest))
  | help {arg : String} (h : Argument.ofString arg = .help) (rest : List String) :
      Decides format (arg :: rest) .help
  | version {arg : String} (h : Argument.ofString arg = .version) (rest : List String) :
      Decides format (arg :: rest) .version
  /-- An option has a value that it does not take. -/
  | valued {arg : String} (h : Argument.ofString arg = .malformed) (rest : List String) :
      Decides format (arg :: rest) .usageError
  /-- The name of a printer is missing. -/
  | nameless {arg : String} (h : Argument.ofString arg = .printer) :
      Decides format [arg] .usageError
  /-- There is no format of that name. -/
  | misnamed {args rest : List String} {name : String} (h : NamesPrinter args name rest)
      (hname : ∀ chosen : LineFormat, name ≠ chosen.name) : Decides format args .usageError
  /-- A printer has been chosen before. -/
  | repeated {args rest : List String} {name : String} (h : NamesPrinter args name rest)
      (hformat : format ≠ none) : Decides format args .usageError

section Decides

variable {format : Option LineFormat} {args : List String} {action : Action}

theorem parse_of_decides (h : Decides format args action) : parse format args = action := by
  cases h with
  | nothing => rfl
  | expression harg rest => exact parse_expression harg rest
  | endOfOptions harg rest => exact parse_endOfOptions harg rest
  | help harg | version harg | valued harg | nameless harg =>
      rw [parse.eq_def]
      simp only [harg]
  | @misnamed _ rest name hnames hname =>
      have hnone : LineFormat.ofName? name = none := by
        rw [Option.eq_none_iff_forall_ne_some]
        intro chosen hchosen
        exact hname chosen (LineFormat.ofName?_eq_some_iff.1 hchosen)
      exact parse_of_refused hnames (.inl hnone)
  | repeated hnames hformat => exact parse_of_refused hnames (.inr hformat)

/-- A printer option decides, unless it is the first and names a format. -/
theorem decides_or_chooses_of_namesPrinter {rest : List String} {name : String}
    (format : Option LineFormat) (h : NamesPrinter args name rest) :
    (∃ action, Decides format args action) ∨
      ∃ (chosen : LineFormat) (rest : List String), format = none ∧
        NamesPrinter args chosen.name rest := by
  by_cases hname : ∃ chosen : LineFormat, name = chosen.name
  · obtain ⟨chosen, rfl⟩ := hname
    by_cases hformat : format = none
    · exact .inr ⟨chosen, rest, hformat, h⟩
    · exact .inl ⟨_, .repeated h hformat⟩
  · exact .inl ⟨_, .misnamed h fun chosen hchosen => hname ⟨chosen, hchosen⟩⟩

/-- All arguments decide, unless they choose the first printer. -/
theorem decides_or_chooses (format : Option LineFormat) (args : List String) :
    (∃ action, Decides format args action) ∨
      ∃ (chosen : LineFormat) (rest : List String), format = none ∧
        NamesPrinter args chosen.name rest := by
  cases args with
  | nil => exact .inl ⟨_, .nothing⟩
  | cons arg rest =>
      cases harg : Argument.ofString arg with
      | expression => exact .inl ⟨_, .expression harg rest⟩
      | endOfOptions => exact .inl ⟨_, .endOfOptions harg rest⟩
      | help => exact .inl ⟨_, .help harg rest⟩
      | version => exact .inl ⟨_, .version harg rest⟩
      | malformed => exact .inl ⟨_, .valued harg rest⟩
      | printerNamed name => exact decides_or_chooses_of_namesPrinter format (.attached harg)
      | printer =>
          cases rest with
          | nil => exact .inl ⟨_, .nameless harg⟩
          | cons name rest => exact decides_or_chooses_of_namesPrinter format (.next harg)

end Decides

/-- A printer option that names a format is one of the arguments that choose it. -/
theorem exists_chooses_of_namesPrinter {args rest : List String} {chosen : LineFormat}
    (h : NamesPrinter args chosen.name rest) :
    ∃ options, Chooses (some chosen) options ∧ args = options ++ rest := by
  cases h with
  | @next arg _ rest harg =>
      have hspelled := (Argument.ofString_eq_iff (by simp)).1 harg
      generalize htext : arg.toList = text at hspelled
      cases hspelled with
      | printer =>
          obtain rfl := String.toList_injective htext
          exact ⟨_, .long chosen, rfl⟩
      | printerLetter =>
          obtain rfl : arg = "-p" := String.toList_injective htext
          exact ⟨_, .short chosen, rfl⟩
  | @attached arg _ rest harg =>
      have hspelled := (Argument.ofString_eq_iff (by simp)).1 harg
      generalize htext : arg.toList = text at hspelled
      generalize hname : chosen.name = name at hspelled
      cases hspelled with
      | assigned name =>
          have harg : arg = "--printer=" ++ chosen.name := by
            rw [hname, ← String.toList_inj, htext]
            simp
          exact ⟨[arg], harg ▸ .assigned chosen, rfl⟩
      | @attached c letters hletters =>
          have hletter : c :: letters = chosen.name.toList := by rw [hname, String.toList_ofList]
          rw [hletter] at htext hletters
          cases chosen with
          | readable =>
              obtain rfl : arg = "-ph" := String.toList_injective htext
              exact ⟨_, .attached, rfl⟩
          | raw =>
              -- the name of this format is no letter of an option
              exact absurd hletters (by decide)

/-- Arguments ask for what the first of them decides that chooses no printer. -/
theorem parse_eq_iff {args : List String} {action : Action} :
    parse none args = action ↔ ∃ format options rest, Chooses format options ∧
      args = options ++ rest ∧ Decides format rest action := by
  constructor
  · rintro rfl
    rcases decides_or_chooses none args with ⟨action, hdecides⟩ | ⟨chosen, rest, -, hnames⟩
    · rw [parse_of_decides hdecides]
      exact ⟨none, [], args, .nothing, rfl, hdecides⟩
    · obtain ⟨options, hchooses, rfl⟩ := exists_chooses_of_namesPrinter hnames
      obtain ⟨action, hdecides⟩ :=
        (decides_or_chooses (some chosen) rest).resolve_right (by simp)
      rw [parse_of_chooses hchooses, parse_of_decides hdecides]
      exact ⟨some chosen, options, rest, hchooses, rfl, hdecides⟩
  · rintro ⟨format, options, rest, hchooses, rfl, hdecides⟩
    rw [parse_of_chooses hchooses, parse_of_decides hdecides]

/-- A second printer is refused, also where its name would be; the help is shown for a hyphen with
letters of options, of which the help is the first; and what is no option is calculated. -/
example :
    parse none ["-ph", "--printer=n", "1h"] = .usageError ∧
      parse none ["-p", "--help"] = .usageError ∧
      parse none ["-p", "n", "-hV", "-p"] = .help ∧
      parse none ["-pn", "-h"] = .calculate none "-pn-h" := by
  decide

/-- Behind the options that choose a printer, the help and the version are shown whatever follows,
and where an option is used wrongly nothing is calculated. -/
theorem respond_of_chooses (texts : Texts) {format : Option LineFormat} {options : List String}
    (h : Chooses format options) :
    (∀ arg rest, Argument.Spelled arg.toList .help →
        respond texts (options ++ arg :: rest) = ⟨0, texts.help, ""⟩) ∧
      (∀ arg rest, Argument.Spelled arg.toList .version →
        respond texts (options ++ arg :: rest) = ⟨0, versionLine, ""⟩) ∧
      ∀ rest, Decides format rest .usageError →
        respond texts (options ++ rest) = ⟨2, "", texts.usageError⟩ := by
  have hrespond {rest : List String} {action : Action} (hdecides : Decides format rest action) :
      respond texts (options ++ rest) = perform texts action := by
    rw [respond, parse_of_chooses h, parse_of_decides hdecides]
  refine ⟨?_, ?_, ?_⟩
  · intro arg rest hhelp
    exact hrespond (.help ((Argument.ofString_eq_iff (by simp)).2 hhelp) rest)
  · intro arg rest hversion
    exact hrespond (.version ((Argument.ofString_eq_iff (by simp)).2 hversion) rest)
  · intro rest hdecides
    exact hrespond hdecides

end DurationCalculator.CommandLine
