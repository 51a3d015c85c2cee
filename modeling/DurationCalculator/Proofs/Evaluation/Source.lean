import Mathlib.Data.List.Induction
import Mathlib.Algebra.Order.BigOperators.Group.List
import Mathlib.Algebra.Order.Field.Rat
import DurationCalculator.Calculation
import DurationCalculator.Proofs.Evaluation.Agreement
import DurationCalculator.Proofs.Token.Acceptance

/-!
# Texts with a tree

An expression is evaluated to the meaning of the tree that it spells (`evaluate_of_spells`), so what
is said of trees holds of texts as well. Spelled texts may be put side by side with a symbol between
them, which is how a text is put into parentheses (`Spells.append_symbol`, `Spells.group`).

Literals that stand side by side are a compound duration. Where each of them is a duration that is
not negative, the compound is their sum, whether a partial sum or only the whole sum leaves the
64-bit range (`result_compound`).
-/

set_option autoImplicit false

namespace DurationCalculator

open Grammar

/-- An expression is evaluated to the meaning of the tree that it spells. -/
theorem evaluate_of_spells {e : Expression} {source : String}
    (h : Spells e.tokens source.toList) :
    (evaluate source).result = (e.meaning checkedArithmetic).result.mapError .evaluation ∧
      (evaluate source).trace = (e.meaning checkedArithmetic).trace := by
  have hscan : scan source = .ok (e.tokens ++ [.endOfInput]) := scan_eq_ok_iff.2 ⟨_, rfl, h⟩
  rw [evaluate, hscan]
  exact Evaluation.evaluateTokens_tokens e []

namespace Spells

/-- A symbol may stand between two spelled texts. -/
theorem append_symbol {c : Char} {symbol : Token} (hsymbol : Scan.symbol? c = some symbol)
    {words others : List Token} {text text' : List Char} (h : Spells words text)
    (hothers : Spells others text') :
    Spells (words ++ symbol :: others) (text ++ c :: text') := by
  induction h with
  | done => exact Scan.spells_symbol hsymbol hothers
  | space _ ih => exact .space ih
  | @token token words text hlexeme hseparated _ ih =>
      rw [List.append_assoc]
      refine .token hlexeme ?_ ih
      intro n l rest hinteger hliteral
      -- what follows the integer is the next token, or the symbol behind the last one
      cases words with
      | nil => exact Scan.separated_symbol hsymbol token others _ n l rest hinteger hliteral
      | cons word words =>
          obtain ⟨rfl, -⟩ := List.cons.inj hliteral
          obtain ⟨text'', rfl⟩ := hseparated n l words hinteger rfl
          exact ⟨_, rfl⟩

/-- A spelled text may be put into parentheses. -/
theorem group {e : Expression} {text : List Char} (h : Spells e.tokens text) :
    Spells (Atom.group e).tokens ('(' :: (text ++ [')'])) :=
  Scan.spells_symbol rfl (h.append_symbol rfl .done)

end Spells

/-- A minus sign in front of a text in parentheses negates its value. -/
theorem result_negated_group {e : Expression} {source : String}
    (h : Spells e.tokens source.toList) :
    (evaluate ("-(" ++ source ++ ")")).result =
      ((e.meaning checkedArithmetic).result.bind Value.negate).mapError .evaluation := by
  let negated : Expression := .operands (.first (.mk (some .minus) (.group e)))
  have hspells : Spells negated.tokens ("-(" ++ source ++ ")").toList := by
    have hminus : Spells negated.tokens ('-' :: '(' :: (source.toList ++ [')'])) :=
      Scan.spells_symbol rfl h.group
    simpa using hminus
  rw [(evaluate_of_spells hspells).1]
  change (((e.meaning checkedArithmetic).bind fun value =>
    .ofResult (value.negate)).result).mapError _ = _
  rw [Meaning.bind]
  cases (e.meaning checkedArithmetic).result <;> rfl

namespace Grammar

/-! ## Compounds -/

/-- Literals side by side. -/
def Sequence.compound (first : Literal) (rest : List Literal) : Sequence :=
  rest.foldl (fun s l => .adjacent s (.literal l)) (.first (.mk none (.literal first)))

theorem Sequence.compound_concat (first : Literal) (rest : List Literal) (l : Literal) :
    compound first (rest ++ [l]) = .adjacent (compound first rest) (.literal l) := by
  simp [compound]

theorem Sequence.tokens_compound (first : Literal) (rest : List Literal) :
    (compound first rest).tokens = (first :: rest).map Token.literal := by
  induction rest using List.reverseRecOn with
  | nil => rfl
  | append_singleton rest l ih => simp [compound_concat, Sequence.tokens, Atom.tokens, ih]

/-- A duration of the count, if there is one. -/
def durationOf (n : Int) : Except EvaluationError Value :=
  Value.orOverflow ((Duration.ofCount? n).map .duration)

theorem durationOf_count (d : Duration) : durationOf d.count = .ok (.duration d) := by
  rw [durationOf, Duration.ofCount?_eq_some_iff.2 rfl]
  rfl

/-- A sum of counts that are not negative overflows wherever a part of it does. -/
theorem result_adjacent {s : Sequence} {l : Literal} {n : Int} {d : Duration} (hn : 0 ≤ n)
    (hs : (s.meaning checkedArithmetic).result = durationOf n)
    (hl : l.value = .ok (.duration d)) (hd : 0 ≤ d.count) :
    ((Sequence.adjacent s (.literal l)).meaning checkedArithmetic).result =
      durationOf (n + d.count) := by
  rw [Sequence.meaning, Meaning.bind]
  cases hcount : Duration.ofCount? n with
  | none =>
      have hlarge := Duration.ofCount?_eq_none_of_le (n := n + d.count) hcount hn (by omega)
      rw [hs, durationOf, durationOf, hcount, hlarge]
      rfl
  | some total =>
      have htotal : total.count = n := Duration.ofCount?_eq_some_iff.1 hcount
      rw [hs, ← htotal, durationOf_count, Atom.meaning]
      have hliteral : checkedArithmetic.literal l = .ok (.duration d) := hl
      rw [hliteral]
      change (checkedArithmetic.perform .add (.duration total) (.duration d)).result = _
      have happly : checkedArithmetic.apply .add (.duration total) (.duration d) =
          durationOf (total.count + d.count) := rfl
      rw [Arithmetic.perform, happly]
      cases durationOf (total.count + d.count) <;> rfl

/-- Durations side by side are their sum. -/
theorem result_compound {α : Type} {literal : α → Literal} {duration : α → Duration} {x : α}
    {xs : List α} (h : ∀ y ∈ x :: xs, (literal y).value = .ok (.duration (duration y)) ∧
      0 ≤ (duration y).count) :
    ((Sequence.compound (literal x) (xs.map literal)).meaning checkedArithmetic).result =
      durationOf ((x :: xs).map fun y => (duration y).count).sum := by
  induction xs using List.reverseRecOn with
  | nil =>
      obtain ⟨hvalue, -⟩ := h x List.mem_cons_self
      have hliteral : checkedArithmetic.literal (literal x) = .ok (.duration (duration x)) := hvalue
      simp [Sequence.compound, Sequence.meaning, Operand.meaning, Atom.meaning, hliteral,
        durationOf_count, Meaning.bind, Meaning.ofResult, Arithmetic.signed]
  | append_singleton ys y ih =>
      rw [← List.cons_append, List.forall_mem_append] at h
      obtain ⟨hys, hy⟩ := h
      obtain ⟨hvalue, hcount⟩ := hy y List.mem_cons_self
      have hsum : 0 ≤ ((x :: ys).map fun z => (duration z).count).sum := by
        refine List.sum_nonneg fun n hn => ?_
        obtain ⟨z, hz, rfl⟩ := List.mem_map.1 hn
        exact (hys z hz).2
      rw [List.map_append, List.map_singleton, Sequence.compound_concat,
        result_adjacent hsum (ih hys) hvalue hcount]
      simp [add_assoc]

end Grammar

end DurationCalculator
