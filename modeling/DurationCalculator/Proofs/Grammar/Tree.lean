import DurationCalculator.Token.Basic

/-!
# Expression trees

The grammar of expressions over tokens:

* an atom is a literal, or an expression in parentheses;
* an operand is an atom behind at most one sign;
* a sequence is an operand, then any number of tails, each of them a binary operator with an
  operand or an atom alone;
* an expression is empty, or a sequence behind which a binary operator may stand alone.

A tree writes one token list. The converse holds as well: a reader with a stack of unfinished
levels rebuilds the tree from its tokens (`parse_eq_some_iff`), so a token list has at most one
tree (`Expression.tokens_injective`). The reader never reads too far: it goes on reading exactly
as long as some tree starts with what has been read (`viable_iff_isSome_readFrom`).
-/

set_option autoImplicit false

namespace DurationCalculator

/-- The token that writes a binary operator. -/
def Operator.token : Operator → Token
  | add => .plus
  | sub => .minus
  | mul => .star
  | div => .slash

/-- A token writes the operator that it is read as. -/
theorem Operator.operator?_token (op : Operator) : op.token.operator? = some op := by
  cases op <;> rfl

/-- A token that is read as an operator is the one that writes it. -/
theorem Operator.token_of_operator? {token : Token} {op : Operator}
    (h : token.operator? = some op) : op.token = token := by
  cases token <;> cases h <;> rfl

namespace Grammar

/-! ## Trees -/

/-- The sign of an operand. -/
inductive Sign where
  | plus
  | minus
deriving DecidableEq

/-- The token that writes a sign. -/
def Sign.token : Sign → Token
  | plus => .plus
  | minus => .minus

/-- The sign that a token writes. -/
def Sign.ofToken? : Token → Option Sign
  | .plus => some plus
  | .minus => some minus
  | _ => none

mutual

/-- A literal or a group. -/
inductive Atom where
  | literal (l : Literal)
  | group (body : Expression)

/-- An atom with at most one sign. -/
inductive Operand where
  | mk (sign : Option Sign) (atom : Atom)

/-- An operand and its tails, the last tail outermost. -/
inductive Sequence where
  | first (operand : Operand)
  /-- A tail with a binary operator. -/
  | joined (before : Sequence) (op : Operator) (operand : Operand)
  /-- A tail without one: its operand starts with a literal or a parenthesis. -/
  | adjacent (before : Sequence) (atom : Atom)

/-- What stands between two parentheses, or in the whole input. -/
inductive Expression where
  | empty
  | operands (s : Sequence)
  /-- Operands with a binary operator behind them that joins nothing. -/
  | dangling (s : Sequence) (op : Operator)

end

/-- The tokens of a sign that may be missing. -/
def signTokens : Option Sign → List Token
  | none => []
  | some sign => [sign.token]

mutual

/-- The tokens of an atom. -/
def Atom.tokens : Atom → List Token
  | .literal l => [.literal l]
  | .group body => .leftParenthesis :: (body.tokens ++ [.rightParenthesis])

/-- The tokens of an operand. -/
def Operand.tokens : Operand → List Token
  | .mk sign atom => signTokens sign ++ atom.tokens

/-- The tokens of a sequence. -/
def Sequence.tokens : Sequence → List Token
  | .first operand => operand.tokens
  | .joined before op operand => before.tokens ++ op.token :: operand.tokens
  | .adjacent before atom => before.tokens ++ atom.tokens

/-- The tokens of an expression. -/
def Expression.tokens : Expression → List Token
  | .empty => []
  | .operands s => s.tokens
  | .dangling s op => s.tokens ++ [op.token]

end

/-- The sequence that ends in an operand, behind operands with an operator or behind nothing. -/
def Sequence.extend : Option (Sequence × Operator) → Operand → Sequence
  | none, operand => .first operand
  | some (before, op), operand => .joined before op operand

/-! ## Reading -/

/-- How far a level has been read. -/
inductive Level where
  /-- An atom completes the next operand: it stands behind operands and an operator or behind
  nothing, and behind a sign or none. -/
  | awaiting (before : Option (Sequence × Operator)) (sign : Option Sign)
  /-- The last operand is complete. -/
  | complete (s : Sequence)

/-- The innermost level, and the levels around it from the inside out. -/
abbrev Position := Level × List Level

namespace Level

/-- The level after an atom. -/
def extend : Level → Atom → Sequence
  | awaiting before sign, atom => Sequence.extend before (.mk sign atom)
  | complete s, atom => .adjacent s atom

/-- The expression that a level is when it ends here. It cannot end behind a sign. -/
def expression? : Level → Option Expression
  | awaiting none none => some .empty
  | awaiting (some (s, op)) none => some (.dangling s op)
  | awaiting _ (some _) => none
  | complete s => some (.operands s)

/-- Reads one token that is neither a literal nor a parenthesis: a sign where an operand
begins, a binary operator behind an operand. -/
def stepSymbol (token : Token) : Level → Option Level
  | awaiting before none => (Sign.ofToken? token).map fun sign => awaiting before (some sign)
  | awaiting _ (some _) => none
  | complete s => token.operator?.map fun op => awaiting (some (s, op)) none

/-- Reads one token. -/
def step (token : Token) (level : Level) (outer : List Level) : Option Position :=
  match token with
  | .literal l => some (complete (level.extend (.literal l)), outer)
  | .leftParenthesis => some (awaiting none none, level :: outer)
  | .rightParenthesis =>
      match level.expression?, outer with
      | some body, enclosing :: rest => some (complete (enclosing.extend (.group body)), rest)
      | _, _ => none
  | token => (level.stepSymbol token).map fun next => (next, outer)

end Level

/-- Reads tokens, as long as they can belong to an expression. -/
def readFrom : Position → List Token → Option Position
  | position, [] => some position
  | (level, outer), token :: rest => (level.step token outer).bind fun next => readFrom next rest

/-- Where the reading of an expression starts. -/
def Position.start : Position := (.awaiting none none, [])

/-- The expression that has been read when the input ends here. -/
def Position.expression? : Position → Option Expression
  | (level, []) => level.expression?
  | (_, _ :: _) => none

/-- The tree of a token list. -/
def parse (tokens : List Token) : Option Expression :=
  (readFrom Position.start tokens).bind Position.expression?

/-- Reading two lists goes on with the second where the first has ended. -/
theorem readFrom_append (xs ys : List Token) (position : Position) :
    readFrom position (xs ++ ys) = (readFrom position xs).bind fun next => readFrom next ys := by
  induction xs generalizing position with
  | nil => rfl
  | cons x xs ih =>
      rcases position with ⟨level, outer⟩
      cases h : level.step x outer with
      | none => simp [readFrom, h]
      | some next => simp [readFrom, h, ih]

/-! ## A position holds what has been read -/

/-- The tokens of a level. -/
def Level.tokens : Level → List Token
  | awaiting none sign => signTokens sign
  | awaiting (some (s, op)) sign => s.tokens ++ op.token :: signTokens sign
  | complete s => s.tokens

/-- The tokens in front of the innermost level. -/
def outerTokens : List Level → List Token
  | [] => []
  | level :: outer => outerTokens outer ++ level.tokens ++ [.leftParenthesis]

/-- The tokens of a position. -/
def Position.tokens (position : Position) : List Token :=
  outerTokens position.2 ++ position.1.tokens

theorem Level.tokens_extend (level : Level) (atom : Atom) :
    (level.extend atom).tokens = level.tokens ++ atom.tokens := by
  rcases level with ⟨_ | ⟨s, op⟩, sign⟩ | s
  · rfl
  · simp [Level.extend, Sequence.extend, Level.tokens, Sequence.tokens, Operand.tokens]
  · rfl

theorem Level.tokens_of_expression? {level : Level} {body : Expression}
    (h : level.expression? = some body) : body.tokens = level.tokens := by
  rcases level with ⟨_ | ⟨s, op⟩, _ | sign⟩ | s <;> cases h <;> rfl

/-- An operator or a sign adds its token, whatever the token is. -/
theorem Level.tokens_of_stepSymbol {token : Token} {level next : Level}
    (h : level.stepSymbol token = some next) : next.tokens = level.tokens ++ [token] := by
  rcases level with ⟨before, _ | sign⟩ | s
  · obtain ⟨sign, hsign, rfl⟩ := Option.map_eq_some_iff.1 h
    have htoken : sign.token = token := by
      cases token <;> cases hsign <;> rfl
    rcases before with _ | ⟨s, op⟩ <;> simp [Level.tokens, signTokens, htoken]
  · cases h
  · obtain ⟨op, hop, rfl⟩ := Option.map_eq_some_iff.1 h
    simp [Level.tokens, signTokens, Operator.token_of_operator? hop]

/-- A step adds its token. -/
theorem Level.tokens_of_step {token : Token} {level : Level} {outer : List Level}
    {next : Position} (h : level.step token outer = some next) :
    next.tokens = Position.tokens (level, outer) ++ [token] := by
  -- operators stay in their level, and so would the tokens that nothing reads
  have hsymbol (h : (level.stepSymbol token).map (fun next => (next, outer)) = some next) :
      next.tokens = Position.tokens (level, outer) ++ [token] := by
    obtain ⟨now, hnow, rfl⟩ := Option.map_eq_some_iff.1 h
    simp [Position.tokens, Level.tokens_of_stepSymbol hnow]
  cases token with
  | literal l =>
      cases h
      simp [Position.tokens, Level.tokens, Level.tokens_extend, Atom.tokens]
  | leftParenthesis =>
      cases h
      simp [Position.tokens, Level.tokens, signTokens, outerTokens]
  | rightParenthesis =>
      -- the level ends as a group, which is an atom of the enclosing level
      cases hbody : level.expression? with
      | none => simp [Level.step, hbody] at h
      | some body =>
          cases outer with
          | nil => simp [Level.step, hbody] at h
          | cons enclosing rest =>
              simp only [Level.step, hbody, Option.some.injEq] at h
              subst h
              simp [Position.tokens, Level.tokens, Level.tokens_extend, Atom.tokens,
                outerTokens, Level.tokens_of_expression? hbody]
  | plus => exact hsymbol h
  | minus => exact hsymbol h
  | star => exact hsymbol h
  | slash => exact hsymbol h
  | whitespace => exact hsymbol h
  | endOfInput => exact hsymbol h

/-- A reading adds its tokens. -/
theorem tokens_of_readFrom {tokens : List Token} {position next : Position}
    (h : readFrom position tokens = some next) : next.tokens = position.tokens ++ tokens := by
  induction tokens generalizing position with
  | nil =>
      cases h
      rw [List.append_nil]
  | cons token rest ih =>
      rcases position with ⟨level, outer⟩
      obtain ⟨now, hnow, hrest⟩ := Option.bind_eq_some_iff.1 h
      rw [ih hrest, Level.tokens_of_step hnow, List.append_assoc, List.singleton_append]

/-- The tree of a token list writes the list. -/
theorem tokens_of_parse {w : List Token} {e : Expression} (h : parse w = some e) :
    e.tokens = w := by
  obtain ⟨⟨level, outer⟩, hread, hend⟩ := Option.bind_eq_some_iff.1 h
  have hw := tokens_of_readFrom hread
  cases outer with
  | nil =>
      rw [Level.tokens_of_expression? hend]
      simpa [Position.tokens, Position.start, outerTokens, Level.tokens, signTokens] using hw
  | cons enclosing outer => cases hend

/-! ## Every tree is read -/

/-- The level of an expression that has been read up to its end. -/
def Expression.level : Expression → Level
  | .empty => .awaiting none none
  | .operands s => .complete s
  | .dangling s op => .awaiting (some (s, op)) none

theorem Expression.expression?_level (e : Expression) : e.level.expression? = some e := by
  cases e <;> rfl

/-- A binary operator behind an operand is read as one. -/
theorem Level.step_operator (s : Sequence) (op : Operator) (outer : List Level) :
    (complete s).step op.token outer = some (awaiting (some (s, op)) none, outer) := by
  cases op <;> rfl

/-- A sign where an operand begins is read as one. -/
theorem Level.step_sign (before : Option (Sequence × Operator)) (sign : Sign)
    (outer : List Level) :
    (awaiting before none).step sign.token outer = some (awaiting before (some sign), outer) := by
  cases sign <;> rfl

/-- The closing parenthesis of a group completes an operand of the enclosing level. -/
theorem Level.step_close (body : Expression) (enclosing : Level) (outer : List Level) :
    body.level.step .rightParenthesis (enclosing :: outer) =
      some (complete (enclosing.extend (.group body)), outer) := by
  simp only [Level.step, Expression.expression?_level]

mutual

/-- An atom completes an operand, whatever stands in front of it. -/
theorem Atom.readFrom_tokens (atom : Atom) (level : Level) (outer : List Level)
    (rest : List Token) :
    readFrom (level, outer) (atom.tokens ++ rest) =
      readFrom (.complete (level.extend atom), outer) rest := by
  match atom with
  | .literal l => rfl
  | .group body =>
      -- the body is read in a level of its own, with this one around it
      calc readFrom (level, outer) ((Atom.group body).tokens ++ rest)
          = readFrom (.awaiting none none, level :: outer)
              (body.tokens ++ .rightParenthesis :: rest) := by
            simp [Atom.tokens, readFrom, Level.step]
        _ = readFrom (body.level, level :: outer) (.rightParenthesis :: rest) :=
            body.readFrom_tokens (level :: outer) _
        _ = readFrom (.complete (level.extend (.group body)), outer) rest := by
            simp [readFrom, Level.step_close]

/-- An operand extends what stands in front of it. -/
theorem Operand.readFrom_tokens (operand : Operand) (before : Option (Sequence × Operator))
    (outer : List Level) (rest : List Token) :
    readFrom (.awaiting before none, outer) (operand.tokens ++ rest) =
      readFrom (.complete (Sequence.extend before operand), outer) rest := by
  match operand with
  | .mk none atom => exact atom.readFrom_tokens (.awaiting before none) outer rest
  | .mk (some sign) atom =>
      have hatom := atom.readFrom_tokens (.awaiting before (some sign)) outer rest
      simpa [Operand.tokens, signTokens, readFrom, Level.step_sign, Level.extend] using hatom

/-- A sequence is read up to its last operand. -/
theorem Sequence.readFrom_tokens (s : Sequence) (outer : List Level) (rest : List Token) :
    readFrom (.awaiting none none, outer) (s.tokens ++ rest) =
      readFrom (.complete s, outer) rest := by
  match s with
  | .first operand => exact operand.readFrom_tokens none outer rest
  | .joined before op operand =>
      have hoperand := operand.readFrom_tokens (some (before, op)) outer rest
      simpa [Sequence.tokens, before.readFrom_tokens, readFrom, Level.step_operator,
        Sequence.extend] using hoperand
  | .adjacent before atom =>
      have hatom := atom.readFrom_tokens (.complete before) outer rest
      simpa [Sequence.tokens, before.readFrom_tokens, Level.extend] using hatom

/-- An expression is read up to its end. -/
theorem Expression.readFrom_tokens (e : Expression) (outer : List Level) (rest : List Token) :
    readFrom (.awaiting none none, outer) (e.tokens ++ rest) =
      readFrom (e.level, outer) rest := by
  match e with
  | .empty => rfl
  | .operands s => exact s.readFrom_tokens outer rest
  | .dangling s op =>
      simp [Expression.tokens, s.readFrom_tokens, readFrom, Level.step_operator, Expression.level]

end

/-- A tree is the tree of its tokens. -/
theorem parse_tokens (e : Expression) : parse e.tokens = some e := by
  have hread := e.readFrom_tokens [] []
  rw [List.append_nil] at hread
  simp [parse, Position.start, hread, readFrom, Position.expression?, Expression.expression?_level]

/-- The tree of a token list is the one that writes it. -/
theorem parse_eq_some_iff {w : List Token} {e : Expression} :
    parse w = some e ↔ e.tokens = w := by
  constructor
  · exact tokens_of_parse
  · rintro rfl
    exact parse_tokens e

/-- No two trees write the same tokens. -/
theorem Expression.tokens_injective {e e' : Expression} (h : e.tokens = e'.tokens) : e = e' := by
  have hparse := parse_tokens e
  rw [h, parse_tokens e'] at hparse
  exact (Option.some.inj hparse).symm

/-! ## Viable token lists -/

/-- Some expression, with the end of the input behind it, starts with the tokens. -/
def Viable (tokens : List Token) : Prop :=
  ∃ (e : Expression) (rest : List Token), e.tokens ++ [.endOfInput] = tokens ++ rest

/-- The end of the input is no part of what is read. -/
theorem endOfInput_notMem_of_readFrom {tokens : List Token} {position next : Position}
    (h : readFrom position tokens = some next) : .endOfInput ∉ tokens := by
  induction tokens generalizing position with
  | nil => exact List.not_mem_nil
  | cons token rest ih =>
      rcases position with ⟨level, outer⟩
      obtain ⟨now, hnow, hrest⟩ := Option.bind_eq_some_iff.1 h
      intro hmem
      rcases List.mem_cons.1 hmem with rfl | hmem
      · rcases level with ⟨before, _ | sign⟩ | s <;> cases hnow
      · exact ih hrest hmem

theorem Expression.endOfInput_notMem_tokens (e : Expression) : .endOfInput ∉ e.tokens := by
  obtain ⟨position, hread, -⟩ := Option.bind_eq_some_iff.1 (parse_tokens e)
  exact endOfInput_notMem_of_readFrom hread

/-- What is read in two parts is read in its first part. -/
theorem isSome_readFrom_of_append {xs ys : List Token} {position : Position}
    (h : (readFrom position (xs ++ ys)).isSome) : (readFrom position xs).isSome := by
  rw [readFrom_append] at h
  exact Option.isSome_of_isSome_bind h

/-- A level that can end here leads to an expression: its groups are closed one by one. -/
theorem exists_end_of_expression? (level : Level) (outer : List Level) {body : Expression}
    (h : level.expression? = some body) :
    ∃ rest, ((readFrom (level, outer) rest).bind Position.expression?).isSome := by
  -- on the levels around: a closed group is an operand, so the next level can end as well
  induction outer generalizing level body with
  | nil => exact ⟨[], by simp [readFrom, Position.expression?, h]⟩
  | cons enclosing outer ih =>
      obtain ⟨rest, hrest⟩ := ih (.complete (enclosing.extend (.group body))) rfl
      refine ⟨.rightParenthesis :: rest, ?_⟩
      simpa [readFrom, Level.step, h] using hrest

/-- Every position leads to an expression. -/
theorem exists_end (position : Position) :
    ∃ rest, ((readFrom position rest).bind Position.expression?).isSome := by
  rcases position with ⟨level, outer⟩
  cases h : level.expression? with
  | some body => exact exists_end_of_expression? level outer h
  | none =>
      -- only a sign keeps a level from ending, and any literal may follow it
      let atom := Atom.literal (.integer "0")
      obtain ⟨rest, hrest⟩ :=
        exists_end_of_expression? (.complete (level.extend atom)) outer rfl
      exact ⟨.literal (.integer "0") :: rest, hrest⟩

/-- Reading goes on exactly as long as the tokens can be extended to an expression. -/
theorem viable_iff_isSome_readFrom {tokens : List Token} (hend : .endOfInput ∉ tokens) :
    Viable tokens ↔ (readFrom Position.start tokens).isSome := by
  constructor
  · rintro ⟨e, rest, h⟩
    have hread : (readFrom Position.start e.tokens).isSome := by
      obtain ⟨position, hread, -⟩ := Option.bind_eq_some_iff.1 (parse_tokens e)
      rw [hread]
      rfl
    -- the tokens end in front of the end of the input, or hold it
    rcases List.append_eq_append_iff.1 h with ⟨more, rfl, hmore⟩ | ⟨more, he, -⟩
    · cases more with
      | nil => rwa [List.append_nil]
      | cons token more =>
          simp only [List.cons_append, List.cons.injEq] at hmore
          exact absurd (by simp [← hmore.1]) hend
    · rw [he] at hread
      exact isSome_readFrom_of_append hread
  · intro h
    obtain ⟨position, hread⟩ := Option.isSome_iff_exists.1 h
    -- complete what has been read, and the tree of the whole starts with the tokens
    obtain ⟨rest, hrest⟩ := exists_end position
    obtain ⟨e, he⟩ := Option.isSome_iff_exists.1 hrest
    have hparse : parse (tokens ++ rest) = some e := by
      rw [parse, readFrom_append, hread]
      exact he
    exact ⟨e, rest ++ [.endOfInput], by rw [tokens_of_parse hparse, List.append_assoc]⟩

/-- The input may end exactly behind an expression. -/
theorem viable_append_endOfInput_iff {tokens : List Token} :
    Viable (tokens ++ [.endOfInput]) ↔ ∃ e : Expression, e.tokens = tokens := by
  constructor
  · rintro ⟨e, rest, h⟩
    refine ⟨e, ?_⟩
    rcases rest.eq_nil_or_concat with rfl | ⟨rest, last, rfl⟩
    · simpa using h
    · -- with tokens left over, the end of the input would stand inside the expression
      have htokens : e.tokens = tokens ++ .endOfInput :: rest := by
        have h' : e.tokens ++ [.endOfInput] = (tokens ++ .endOfInput :: rest) ++ [last] := by
          simpa using h
        exact (List.append_inj' h' rfl).1
      exact absurd (by simp [htokens]) e.endOfInput_notMem_tokens
  · rintro ⟨e, rfl⟩
    exact ⟨e, [], (List.append_nil _).symm⟩

end Grammar

end DurationCalculator
