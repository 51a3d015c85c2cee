import DurationCalculator.Evaluation.Machine
import DurationCalculator.Proofs.Grammar.Tree
import DurationCalculator.Proofs.Value.Quantity

/-!
# Meanings of expression trees

What a tree computes, strictly from left to right: operators have no precedence, an operand is
parsed and signed before it is joined, an empty expression is the zero of the arithmetic, and an
operator that joins nothing does nothing. Each operation that succeeds leaves one entry in the
trace, those of a group before the operation that the group is an operand of, and the first error
ends the computation.

The arithmetic is a parameter. A map between two arithmetics that respects their operations maps
the meanings of all trees (`Expression.meaning_map`); so the meaning over checked values is the
meaning over unbounded integers (`Expression.map_quantity_meaning`).
-/

set_option autoImplicit false

namespace DurationCalculator

/-- An operation with its values mapped. -/
def OperationOn.map {α β : Type} (f : α → β) (o : OperationOn α) : OperationOn β :=
  ⟨f o.left, o.operator, f o.right, f o.result⟩

namespace Grammar

/-! ## Computations -/

/-- What a computation yields, and the operations that it has performed, in order. -/
structure Meaning (α : Type) where
  result : Except EvaluationError α
  trace : List (OperationOn α)

namespace Meaning

variable {α β : Type}

/-- A computation that performs no operation. -/
def ofResult (result : Except EvaluationError α) : Meaning α := ⟨result, []⟩

/-- Goes on with the result, unless it is an error. -/
def bind (first : Meaning α) (next : α → Meaning α) : Meaning α :=
  match first.result with
  | .error e => ⟨.error e, first.trace⟩
  | .ok value => ⟨(next value).result, first.trace ++ (next value).trace⟩

/-- A computation with its values mapped. -/
def map (f : α → β) (m : Meaning α) : Meaning β :=
  ⟨m.result.map f, m.trace.map (OperationOn.map f)⟩

theorem map_bind (f : α → β) (first : Meaning α) (next : α → Meaning α)
    (next' : β → Meaning β) (h : ∀ value, (next value).map f = next' (f value)) :
    (first.bind next).map f = (first.map f).bind next' := by
  rcases first with ⟨e | value, trace⟩
  · rfl
  · simp [bind, map, Except.map, ← h]

end Meaning

/-! ## Arithmetics -/

/-- The values of a computation. -/
structure Arithmetic (α : Type) where
  /-- The value of an empty expression. -/
  zero : α
  literal : Literal → Except EvaluationError α
  negate : α → Except EvaluationError α
  apply : Operator → α → α → Except EvaluationError α

namespace Arithmetic

variable {α : Type} (A : Arithmetic α)

/-- The value behind a sign. -/
def signed : Option Sign → α → Except EvaluationError α
  | some .minus, value => A.negate value
  | some .plus, value => .ok value
  | none, value => .ok value

/-- Performs a binary operation, which leaves an entry when it succeeds. -/
def perform (op : Operator) (left right : α) : Meaning α :=
  match A.apply op left right with
  | .error e => ⟨.error e, []⟩
  | .ok result => ⟨.ok result, [⟨left, op, right, result⟩]⟩

end Arithmetic

/-- The arithmetic on checked values. -/
def checkedArithmetic : Arithmetic Value where
  zero := .duration Duration.zero
  literal := Literal.value
  negate := Value.negate
  apply := Operator.apply

/-- The arithmetic on unbounded integers, with each result checked against the 64-bit range. -/
def exactArithmetic : Arithmetic Quantity where
  zero := ⟨.duration, 0⟩
  literal := fun l => l.value.map Value.quantity
  negate := Quantity.negate
  apply := Quantity.apply

/-! ## Trees -/

section Meaning

variable {α : Type} (A : Arithmetic α)

mutual

/-- The meaning of an atom. -/
def Atom.meaning : Atom → Meaning α
  | .literal l => .ofResult (A.literal l)
  | .group body => body.meaning

/-- The meaning of an operand. -/
def Operand.meaning : Operand → Meaning α
  | .mk sign atom => atom.meaning.bind fun value => .ofResult (A.signed sign value)

/-- The meaning of a sequence. -/
def Sequence.meaning : Sequence → Meaning α
  | .first operand => operand.meaning
  | .joined before op operand =>
      before.meaning.bind fun left => operand.meaning.bind fun right => A.perform op left right
  | .adjacent before atom =>
      before.meaning.bind fun left => atom.meaning.bind fun right => A.perform .add left right

/-- The meaning of an expression. -/
def Expression.meaning : Expression → Meaning α
  | .empty => .ofResult (.ok A.zero)
  | .operands s => s.meaning
  | .dangling s _ => s.meaning

end

end Meaning

/-! ## Maps between arithmetics -/

/-- A map that respects the operations of two arithmetics. -/
structure Arithmetic.Respects {α β : Type} (f : α → β) (A : Arithmetic α)
    (B : Arithmetic β) : Prop where
  zero : f A.zero = B.zero
  literal : ∀ l, (A.literal l).map f = B.literal l
  negate : ∀ a, (A.negate a).map f = B.negate (f a)
  apply : ∀ op a b, (A.apply op a b).map f = B.apply op (f a) (f b)

namespace Arithmetic.Respects

variable {α β : Type} {f : α → β} {A : Arithmetic α} {B : Arithmetic β}

theorem signed (h : Respects f A B) (sign : Option Sign) (a : α) :
    (A.signed sign a).map f = B.signed sign (f a) := by
  rcases sign with _ | _ | _
  · rfl
  · rfl
  · exact h.negate a

theorem perform (h : Respects f A B) (op : Operator) (a b : α) :
    (A.perform op a b).map f = B.perform op (f a) (f b) := by
  have happly := h.apply op a b
  unfold Arithmetic.perform
  rw [← happly]
  cases A.apply op a b <;> rfl

end Arithmetic.Respects

section Respects

variable {α β : Type} {f : α → β} {A : Arithmetic α} {B : Arithmetic β}

mutual

theorem Atom.meaning_map (h : Arithmetic.Respects f A B) (atom : Atom) :
    (atom.meaning A).map f = atom.meaning B := by
  match atom with
  | .literal l => exact congrArg Meaning.ofResult (h.literal l)
  | .group body => exact body.meaning_map h

theorem Operand.meaning_map (h : Arithmetic.Respects f A B) (operand : Operand) :
    (operand.meaning A).map f = operand.meaning B := by
  match operand with
  | .mk sign atom =>
      rw [Operand.meaning, Operand.meaning, ← atom.meaning_map h]
      exact Meaning.map_bind f _ _ _ fun value => congrArg Meaning.ofResult (h.signed sign value)

theorem Sequence.meaning_map (h : Arithmetic.Respects f A B) (s : Sequence) :
    (s.meaning A).map f = s.meaning B := by
  match s with
  | .first operand => exact operand.meaning_map h
  | .joined before op operand =>
      rw [Sequence.meaning, Sequence.meaning, ← before.meaning_map h, ← operand.meaning_map h]
      -- the value in front is computed first, then the operand that is joined to it
      refine Meaning.map_bind f _ _ _ fun left => ?_
      exact Meaning.map_bind f _ _ _ fun right => h.perform op left right
  | .adjacent before atom =>
      rw [Sequence.meaning, Sequence.meaning, ← before.meaning_map h, ← atom.meaning_map h]
      refine Meaning.map_bind f _ _ _ fun left => ?_
      exact Meaning.map_bind f _ _ _ fun right => h.perform .add left right

/-- A map that respects the operations maps the meanings. -/
theorem Expression.meaning_map (h : Arithmetic.Respects f A B) (e : Expression) :
    (e.meaning A).map f = e.meaning B := by
  match e with
  | .empty => exact congrArg (fun value => Meaning.ofResult (.ok value)) h.zero
  | .operands s => exact s.meaning_map h
  | .dangling s op => exact s.meaning_map h

end

end Respects

/-- The quantity of a value respects the operations. -/
theorem respects_quantity :
    Arithmetic.Respects Value.quantity checkedArithmetic exactArithmetic where
  zero := rfl
  literal _ := rfl
  negate := Value.map_quantity_negate
  apply := Operator.map_quantity_apply

/-- Over checked values a tree means what it means over unbounded integers. -/
theorem Expression.map_quantity_meaning (e : Expression) :
    (e.meaning checkedArithmetic).map Value.quantity = e.meaning exactArithmetic :=
  e.meaning_map respects_quantity

end Grammar

end DurationCalculator
