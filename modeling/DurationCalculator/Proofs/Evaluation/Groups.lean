import DurationCalculator.Proofs.Evaluation.Source

/-!
# Expressions put together from groups

A text that has a value spells a tree (`exists_tree_of_evaluate`). In parentheses that tree is an
atom, whatever the text is made of: empty, with an operator at its end that joins nothing, or with
an integer in front of the closing parenthesis. So the value of a text that is put together from
groups is computed from the values of the groups, and its trace is put together from their traces
(`evaluate_groups`).
-/

set_option autoImplicit false

namespace DurationCalculator

open Grammar

/-! ## Texts and their trees -/

/-- What is evaluated is the tree that the text spells. -/
theorem evaluate_eq_of_spells {e : Expression} {source : String} {meaning : Meaning Value}
    (h : Spells e.tokens source.toList) (he : e.meaning checkedArithmetic = meaning) :
    evaluate source = ⟨meaning.result.mapError .evaluation, meaning.trace⟩ := by
  obtain ⟨hresult, htrace⟩ := evaluate_of_spells h
  rw [← he, ← hresult, ← htrace]

/-- A text that has a value spells a tree with that value. -/
theorem exists_tree_of_evaluate {source : String} {value : Value} {trace : List Operation}
    (h : evaluate source = ⟨.ok value, trace⟩) :
    ∃ e : Expression, Spells e.tokens source.toList ∧
      e.meaning checkedArithmetic = ⟨.ok value, trace⟩ := by
  -- the tokens of the text are those of a tree, since they have a value
  obtain ⟨e, hspells⟩ : ∃ e : Expression, Spells e.tokens source.toList := by
    cases hscan : scan source with
    | error fault =>
        rw [evaluate, hscan] at h
        cases h
    | ok tokens =>
        obtain ⟨words, rfl, hspells⟩ := scan_eq_ok_iff.1 hscan
        rw [evaluate, hscan] at h
        have hend : .endOfInput ∉ words := fun hmem => hspells.isLexeme .endOfInput hmem
        obtain ⟨e, rfl⟩ := Evaluation.exists_tree_of_result hend (congrArg Outcome.result h)
        exact ⟨e, hspells⟩
  refine ⟨e, hspells, ?_⟩
  rw [evaluate_eq_of_spells hspells rfl] at h
  rcases hmeaning : e.meaning checkedArithmetic with ⟨fault | result, operations⟩
  · rw [hmeaning] at h
    cases h
  · rw [hmeaning] at h
    cases h
    rfl

/-! ## Groups -/

/-- A value is refused its opposite only if that is out of range. -/
theorem Value.eq_overflow_of_negate {v : Value} {e : EvaluationError} (h : v.negate = .error e) :
    e = .overflow := by
  have hchecked (result : Option Value) (hresult : orOverflow result = .error e) :
      e = .overflow := by
    cases result with
    | none => exact (Except.error.inj hresult).symm
    | some w => cases hresult
  cases v with
  | duration d => exact hchecked _ h
  | integer n => exact hchecked _ h

section Groups

variable {e f : Expression} {left right : Value} {before behind : List Operation}

/-- The operand that is an expression in parentheses. -/
def Grammar.Operand.group (e : Expression) : Operand := .mk none (.group e)

/-- A group has the value of its expression. -/
theorem meaning_group (he : e.meaning checkedArithmetic = ⟨.ok left, before⟩) :
    (Operand.group e).meaning checkedArithmetic = ⟨.ok left, before⟩ := by
  rw [Operand.group, Operand.meaning, Atom.meaning, he, Meaning.bind]
  simp [Meaning.ofResult, Arithmetic.signed]

/-- Behind a minus sign a group has the value of opposite sign. -/
theorem meaning_negated_group (he : e.meaning checkedArithmetic = ⟨.ok left, before⟩) :
    (Operand.mk (some .minus) (.group e)).meaning checkedArithmetic = ⟨left.negate, before⟩ := by
  rw [Operand.meaning, Atom.meaning, he, Meaning.bind]
  simp [Meaning.ofResult, Arithmetic.signed, checkedArithmetic]

/-- A group that is joined to a group performs the operations of both, and then the joining one. -/
theorem meaning_joined_groups (he : e.meaning checkedArithmetic = ⟨.ok left, before⟩)
    (hf : f.meaning checkedArithmetic = ⟨.ok right, behind⟩) (op : Operator) :
    (Sequence.joined (.first (.group e)) op (.group f)).meaning checkedArithmetic =
      ⟨op.apply left right,
        before ++ behind ++ (checkedArithmetic.perform op left right).trace⟩ := by
  have hresult : (checkedArithmetic.perform op left right).result = op.apply left right := by
    have happly : checkedArithmetic.apply op left right = op.apply left right := rfl
    rw [Arithmetic.perform, happly]
    cases op.apply left right <;> rfl
  rw [Sequence.meaning, Sequence.meaning, meaning_group he, meaning_group hf]
  simp [Meaning.bind, hresult]

/-- Two groups side by side are added. -/
theorem meaning_adjacent_groups (e f : Expression) :
    (Sequence.adjacent (.first (.group e)) (.group f)).meaning checkedArithmetic =
      (Sequence.joined (.first (.group e)) .add (.group f)).meaning checkedArithmetic := by
  have hgroup : (Operand.group f).meaning checkedArithmetic =
      (Atom.group f).meaning checkedArithmetic := by
    rw [Operand.group, Operand.meaning, Meaning.bind]
    rcases (Atom.group f).meaning checkedArithmetic with ⟨fault | value, trace⟩
    · rfl
    · simp [Meaning.ofResult, Arithmetic.signed]
  simp only [Sequence.meaning, hgroup]

end Groups

/-- The symbol of an operator is read as its token. -/
theorem Operator.symbol?_symbol (op : Operator) : Scan.symbol? op.symbol = some op.token := by
  cases op <;> rfl

/-! ## Texts of groups -/

section Texts

variable {e f : Expression} {a b : String}

theorem spells_group (h : Spells e.tokens a.toList) :
    Spells (Expression.operands (.first (.group e))).tokens ("(" ++ a ++ ")").toList := by
  have htext : ("(" ++ a ++ ")").toList = '(' :: (a.toList ++ [')']) := by simp
  rw [htext]
  exact h.group

theorem spells_negated_group (h : Spells e.tokens a.toList) :
    Spells (Expression.operands (.first (.mk (some .minus) (.group e)))).tokens
      ("-(" ++ a ++ ")").toList := by
  have htext : ("-(" ++ a ++ ")").toList = '-' :: '(' :: (a.toList ++ [')']) := by simp
  rw [htext]
  exact Scan.spells_symbol rfl h.group

theorem spells_joined_groups (ha : Spells e.tokens a.toList) (hb : Spells f.tokens b.toList)
    (op : Operator) :
    Spells (Expression.operands (.joined (.first (.group e)) op (.group f))).tokens
      ("(" ++ a ++ ")" ++ op.symbol.toString ++ "(" ++ b ++ ")").toList := by
  have htext : ("(" ++ a ++ ")" ++ op.symbol.toString ++ "(" ++ b ++ ")").toList =
      '(' :: (a.toList ++ [')']) ++ op.symbol :: '(' :: (b.toList ++ [')']) := by simp
  rw [htext]
  exact ha.group.append_symbol op.symbol?_symbol hb.group

theorem spells_adjacent_groups (ha : Spells e.tokens a.toList) (hb : Spells f.tokens b.toList) :
    Spells (Expression.operands (.adjacent (.first (.group e)) (.group f))).tokens
      ("(" ++ a ++ ")(" ++ b ++ ")").toList := by
  have htext : ("(" ++ a ++ ")(" ++ b ++ ")").toList =
      '(' :: (a.toList ++ [')']) ++ '(' :: (b.toList ++ [')']) := by simp
  rw [htext]
  -- the symbol between the first group and the rest is the parenthesis that opens the second
  have hbody : Spells (f.tokens ++ [.rightParenthesis]) (b.toList ++ [')']) :=
    hb.append_symbol rfl .done
  exact ha.group.append_symbol rfl hbody

end Texts

/-- An expression that is put together from groups is evaluated group by group. A group has the
value and the trace of what it holds; a minus sign in front negates the value, which can only
overflow. Two groups with an operator between them have the result of the operator on their
values, behind the operations of both, and the operation is recorded exactly if it succeeds.
Without an operator the groups are added. -/
theorem evaluate_groups {a b : String} {left right : Value} {before behind : List Operation}
    (ha : evaluate a = ⟨.ok left, before⟩) (hb : evaluate b = ⟨.ok right, behind⟩) :
    evaluate ("(" ++ a ++ ")") = ⟨.ok left, before⟩ ∧
    (evaluate ("-(" ++ a ++ ")") = ⟨left.negate.mapError .evaluation, before⟩ ∧
      ∀ e, left.negate = .error e → e = .overflow) ∧
    (∀ op : Operator,
      let joined := evaluate ("(" ++ a ++ ")" ++ op.symbol.toString ++ "(" ++ b ++ ")")
      (∀ result, op.apply left right = .ok result →
        joined = ⟨.ok result, before ++ behind ++ [⟨left, op, right, result⟩]⟩) ∧
      ∀ e, op.apply left right = .error e →
        joined = ⟨.error (.evaluation e), before ++ behind⟩) ∧
    evaluate ("(" ++ a ++ ")(" ++ b ++ ")") = evaluate ("(" ++ a ++ ")+(" ++ b ++ ")") := by
  obtain ⟨e, hspells, he⟩ := exists_tree_of_evaluate ha
  obtain ⟨f, hspells', hf⟩ := exists_tree_of_evaluate hb
  refine ⟨?_, ⟨?_, ?_⟩, ?_, ?_⟩
  · exact evaluate_eq_of_spells (spells_group hspells) (meaning_group he)
  · exact evaluate_eq_of_spells (spells_negated_group hspells) (meaning_negated_group he)
  · intro fault hfault
    exact Value.eq_overflow_of_negate hfault
  · intro op joined
    have hjoined : joined = _ := evaluate_eq_of_spells (spells_joined_groups hspells hspells' op)
      (meaning_joined_groups he hf op)
    have happly : checkedArithmetic.apply op left right = op.apply left right := rfl
    constructor
    · intro result hresult
      simp [hjoined, Arithmetic.perform, happly, hresult, Except.mapError]
    · intro fault hfault
      simp [hjoined, Arithmetic.perform, happly, hfault, Except.mapError]
  · have hplus := evaluate_eq_of_spells (spells_joined_groups hspells hspells' .add) rfl
    have hadjacent := evaluate_eq_of_spells (spells_adjacent_groups hspells hspells')
      (meaning_adjacent_groups e f)
    have htext : "(" ++ a ++ ")" ++ Operator.add.symbol.toString ++ "(" ++ b ++ ")" =
        "(" ++ a ++ ")+(" ++ b ++ ")" := String.toList_inj.1 (by simp [Operator.symbol])
    rw [htext] at hplus
    rw [hadjacent, hplus]
    rfl

/-- A group with an operator at its end, and an integer in front of a closing parenthesis. -/
theorem evaluate_groups_dangling :
    let ninety : Value := .duration ⟨5400000000000⟩
    let sum : Operation :=
      ⟨.duration ⟨3600000000000⟩, .add, .duration ⟨1800000000000⟩, ninety⟩
    let six : Value := .duration ⟨21600000000000⟩
    evaluate "1h30m+" = ⟨.ok ninety, [sum]⟩ ∧ evaluate "4" = ⟨.ok (.integer 4), []⟩ ∧
      evaluate "(1h30m+)" = ⟨.ok ninety, [sum]⟩ ∧
      evaluate "-(1h30m+)" = ⟨.ok (.duration ⟨-5400000000000⟩), [sum]⟩ ∧
      evaluate "(1h30m+)*(4)" = ⟨.ok six, [sum, ⟨ninety, .mul, .integer 4, six⟩]⟩ ∧
      evaluate "(1h30m+)-(4)" =
        ⟨.error (.evaluation (.unsupportedOperandTypes .sub .duration .integer)), [sum]⟩ ∧
      evaluate "(1h30m+)(4)" = evaluate "(1h30m+)+(4)" := by
  intro ninety sum six
  have hninety : evaluate "1h30m+" = ⟨.ok ninety, [sum]⟩ := rfl
  have hfour : evaluate "4" = ⟨.ok (.integer 4), []⟩ := rfl
  obtain ⟨hgroup, ⟨hnegated, -⟩, hjoined, hadjacent⟩ := evaluate_groups hninety hfour
  have hproduct := (hjoined .mul).1 six rfl
  have hdifference := (hjoined .sub).2 (.unsupportedOperandTypes .sub .duration .integer) rfl
  exact ⟨hninety, hfour, hgroup, hnegated, hproduct, hdifference, hadjacent⟩

end DurationCalculator
