import TinyPascal.Token.Basic
import TinyPascal.Tree.Basic

/-!
# `Tree.Parser.Basic` — reading from a list of tokens

A parser takes the tokens that are left and gives a value with the tokens that it leaves, **fewer than
a bound** that is part of the type: this is what makes the recursive parsers end. The empty list is the
end of the stream.

## Contents
- **Outcomes.** `Parsed α n` is a value and fewer than `n` tokens (`Parsed.here` if nothing was read for
  it, `Parsed.behind` if one token was); `Failure` is what was expected and the
  tokens from the first that does not fit; `Outcome α n` is one of the two.
- **Single tokens.** `accept` takes a token if it is there, `expect` insists on it, `identifier` takes a
  name and `typeName` a type.
- **Operators.** The tokens of the three precedence levels, and `acceptOp`, which takes one of them.
-/

namespace TinyPascal

/-! ## What can be expected -/

/-- What the grammar asks for at a place where another token stands. -/
inductive Expectation where
  | programDot
  | varColon | varSemicolon
  | identifier | typeName
  | paramColon | paramsClose
  | procedureSemicolon | procedureEnd
  | functionOpen | functionColon | functionSemicolon | functionEnd
  | blockBegin | blockEnd
  | statement | assignOrCall
  | ifThen | whileDo
  | writelnOpen | writelnClose
  | factor | parenClose | callClose
deriving DecidableEq, Repr

/-- The expectation in the words of an error message. -/
def Expectation.describe : Expectation → String
  | .programDot => "'.' at the end of the program"
  | .varColon => "':' after the variable names"
  | .varSemicolon => "';' after the variable declaration"
  | .identifier => "identifier"
  | .typeName => "type 'integer' or 'boolean'"
  | .paramColon => "':' after the parameter names"
  | .paramsClose => "')' after the parameter list"
  | .procedureSemicolon => "';' after the procedure header"
  | .procedureEnd => "';' after the procedure body"
  | .functionOpen => "'(' after the function name"
  | .functionColon => "':' before the return type"
  | .functionSemicolon => "';' after the function header"
  | .functionEnd => "';' after the function body"
  | .blockBegin => "'begin'"
  | .blockEnd => "'end'"
  | .statement => "statement"
  | .assignOrCall => "':=' or '(' after identifier"
  | .ifThen => "'then' after the if condition"
  | .whileDo => "'do' after the while condition"
  | .writelnOpen => "'(' after 'writeln'"
  | .writelnClose => "')' after the writeln arguments"
  | .factor => "factor"
  | .parenClose => "')' after the expression"
  | .callClose => "')' after the call arguments"

namespace Parser

/-! ## Outcomes -/

/-- A value that was read, and the tokens after it: fewer than `n`. -/
structure Parsed (α : Type) (n : Nat) where
  value : α
  rest : List Token
  shorter : rest.length < n

namespace Parsed

/-- A value for which nothing was read. -/
def here {α : Type} (value : α) (ts : List Token) : Parsed α (ts.length + 1) :=
  ⟨value, ts, Nat.lt_succ_self _⟩

/-- A value that was read off one token. -/
def behind {α : Type} (value : α) (t : Token) (rest : List Token) : Parsed α (t :: rest).length :=
  ⟨value, rest, Nat.lt_succ_self _⟩

end Parsed

/-- What is left after two readings is shorter than what was there. -/
theorem shorter_trans {a b c : List Token} (h : a.length < b.length)
    (h' : b.length < c.length) : a.length < c.length :=
  Nat.lt_trans h h'

/-- A last reading that may take nothing keeps what is left short. -/
theorem shorter_tail {a b c d : List Token} (h : a.length < b.length + 1)
    (h' : b.length < c.length) (h'' : c.length < d.length) : a.length < d.length + 1 := by
  omega

/-- What was expected, and the tokens from the first one that does not fit. -/
structure Failure where
  expected : Expectation
  rest : List Token
deriving DecidableEq, Repr

/-- The result of reading with fewer than `n` tokens left. -/
abbrev Outcome (α : Type) (n : Nat) := Except Failure (Parsed α n)

/-! ## Single tokens -/

/-- Take a token of the given kind, if it is the next one. -/
def accept (kind : Token.Kind) : (ts : List Token) → Option (Parsed Span ts.length)
  | [] => none
  | t :: rest => if t.kind = kind then some (.behind t.span t rest) else none

/-- Take a token of the given kind, or fail. -/
def expect (kind : Token.Kind) (expected : Expectation) (ts : List Token) :
    Outcome Span ts.length :=
  match accept kind ts with
  | some taken => .ok taken
  | none => .error ⟨expected, ts⟩

/-- Take a name. -/
def identifier : (ts : List Token) → Outcome Ident ts.length
  | ⟨.ident name, span⟩ :: rest => .ok (.behind ⟨name, span⟩ _ rest)
  | ts => .error ⟨.identifier, ts⟩

/-- Take a type, with its place. -/
def typeName : (ts : List Token) → Outcome (Ty × Span) ts.length
  | ⟨.keyword .integer, span⟩ :: rest => .ok (.behind (.integer, span) _ rest)
  | ⟨.keyword .boolean, span⟩ :: rest => .ok (.behind (.boolean, span) _ rest)
  | ts => .error ⟨.typeName, ts⟩

/-! ## Operators -/

/-- The operators that compare. -/
def relational? : Token.Kind → Option BinOp
  | .operator .eq => some .eq
  | .operator .notEq => some .neq
  | .operator .lt => some .lt
  | .operator .ltEq => some .le
  | .operator .gt => some .gt
  | .operator .gtEq => some .ge
  | _ => none

/-- The operators between the terms of a sum. -/
def additive? : Token.Kind → Option BinOp
  | .operator .plus => some .add
  | .operator .minus => some .sub
  | .keyword .or => some .or
  | _ => none

/-- The operators between the factors of a product. -/
def multiplicative? : Token.Kind → Option BinOp
  | .operator .star => some .mul
  | .operator .slash => some .div
  | .keyword .and => some .and
  | _ => none

/-- Take an operator of the given level, if it is the next token. -/
def acceptOp (level : Token.Kind → Option BinOp) :
    (ts : List Token) → Option (Parsed BinOp ts.length)
  | [] => none
  | t :: rest =>
    match level t.kind with
    | some op => some (.behind op t rest)
    | none => none

/-! ## What a taken token says about the tokens -/

theorem accept_cons (kind : Token.Kind) (span : Span) (rest : List Token) :
    accept kind (⟨kind, span⟩ :: rest) = some (.behind span ⟨kind, span⟩ rest) := by
  simp [accept]

/-- A token that was taken stood in front of the rest. -/
theorem eq_cons_of_accept {kind : Token.Kind} {ts : List Token} {p : Parsed Span ts.length}
    (h : accept kind ts = some p) : ts = ⟨kind, p.value⟩ :: p.rest := by
  cases ts with
  | nil => simp [accept] at h
  | cons t rest =>
      simp only [accept] at h
      split at h
      · rename_i hk
        cases h
        simp [Parsed.behind, ← hk]
      · simp at h

theorem expect_cons (kind : Token.Kind) (expected : Expectation) (span : Span)
    (rest : List Token) :
    expect kind expected (⟨kind, span⟩ :: rest) = .ok (.behind span ⟨kind, span⟩ rest) := by
  simp [expect, accept_cons]

/-- A token that was insisted on stood in front of the rest. -/
theorem eq_cons_of_expect {kind : Token.Kind} {expected : Expectation} {ts : List Token}
    {p : Parsed Span ts.length} (h : expect kind expected ts = .ok p) :
    ts = ⟨kind, p.value⟩ :: p.rest := by
  unfold expect at h
  split at h
  · rename_i taken ha
    cases h
    exact eq_cons_of_accept ha
  · simp at h

end Parser

end TinyPascal
