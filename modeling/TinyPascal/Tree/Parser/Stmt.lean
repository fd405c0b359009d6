import TinyPascal.Tree.Parser.Expr

/-!
# `Tree.Parser.Stmt` — reading blocks and statements

```text
block       := 'begin' statements
statements  := 'end' | ';' statements | statement ';' statements | statement 'end'
statement   := name ':=' expression | name arguments | 'return' [expression]
             | 'if' expression 'then' block ['else' block] | 'while' expression 'do' block
             | 'break' | 'continue' | 'writeln' arguments
```

Empty statements are passed over. A `return` stands alone when the next token ends the statement.
-/

namespace TinyPascal
namespace Parser

/-- Nothing more belongs to a `return`: a semicolon, an `end` or the end of the stream follows. -/
def endsReturn : List Token → Bool
  | [] => true
  | t :: _ => t.kind = .punct .semicolon || t.kind = .keyword .end || t.kind = .eof

/-! ## Statements without blocks -/

/-- An assignment or a call, after its name. -/
def assignOrCall (name : Ident) (ts : List Token) : Outcome Stmt ts.length :=
  match accept (.operator .assign) ts with
  | some ⟨_, r, h⟩ => do
    let ⟨value, r₁, h₁⟩ ← expression r
    return ⟨.assign name value (name.span.merge value.span), r₁, shorter_trans h₁ h⟩
  | none =>
    match accept (.punct .lparen) ts with
    | some ⟨_, r, h⟩ => do
      let ⟨(args, stop), r₁, h₁⟩ ← arguments .callClose r
      return ⟨.call name args (name.span.merge stop), r₁, shorter_trans h₁ h⟩
    | none => .error ⟨.assignOrCall, ts⟩

/-- The value of a `return` at `start`, which may be missing. -/
def returned (start : Span) (ts : List Token) : Outcome Stmt (ts.length + 1) :=
  if endsReturn ts then .ok (.here (.return none start) ts)
  else do
    let ⟨value, r, h⟩ ← expression ts
    return ⟨.return (some value) (start.merge value.span), r, by omega⟩

/-- The arguments of a `writeln` at `start`. -/
def written (start : Span) (ts : List Token) : Outcome Stmt ts.length := do
  let ⟨_, r, h⟩ ← expect (.punct .lparen) .writelnOpen ts
  let ⟨(args, stop), r₁, h₁⟩ ← arguments .writelnClose r
  return ⟨.write args (start.merge stop), r₁, shorter_trans h₁ h⟩

/-! ## Blocks -/

mutual

/-- Statements between `begin` and `end`. -/
def block (ts : List Token) : Outcome Block ts.length := do
  let ⟨start, r, h⟩ ← expect (.keyword .begin) .blockBegin ts
  let ⟨(body, stop), r₁, h₁⟩ ← statements r
  return ⟨⟨body, start.merge stop⟩, r₁, shorter_trans h₁ h⟩
termination_by 4 * ts.length

/-- Statements up to and with the `end` of their block, with the place of that `end`. -/
def statements (ts : List Token) : Outcome (List Stmt × Span) ts.length :=
  match accept (.keyword .end) ts with
  | some ⟨stop, r, h⟩ => .ok ⟨([], stop), r, h⟩
  | none =>
    match accept (.punct .semicolon) ts with
    | some ⟨_, r, h⟩ => do
      let ⟨body, r₁, h₁⟩ ← statements r
      return ⟨body, r₁, shorter_trans h₁ h⟩
    | none => do
      let ⟨first, r, h⟩ ← statement ts
      match accept (.punct .semicolon) r with
      | some ⟨_, r₁, h₁⟩ =>
        let ⟨(more, stop), r₂, h₂⟩ ← statements r₁
        return ⟨(first :: more, stop), r₂, by omega⟩
      | none =>
        let ⟨stop, r₁, h₁⟩ ← expect (.keyword .end) .blockEnd r
        return ⟨([first], stop), r₁, shorter_trans h₁ h⟩
termination_by 4 * ts.length + 2

/-- One statement; its first token says which. -/
def statement (ts : List Token) : Outcome Stmt ts.length :=
  match ts with
  | [] => .error ⟨.statement, []⟩
  | ⟨kind, start⟩ :: r =>
    match kind with
    | .ident name => do
      let ⟨s, r₁, h₁⟩ ← assignOrCall ⟨name, start⟩ r
      return ⟨s, r₁, by simp; omega⟩
    | .keyword .return => do
      let ⟨s, r₁, h₁⟩ ← returned start r
      return ⟨s, r₁, by simp; omega⟩
    | .keyword .if => do
      let ⟨cond, r₁, h₁⟩ ← expression r
      let ⟨_, r₂, h₂⟩ ← expect (.keyword .then) .ifThen r₁
      let ⟨yes, r₃, h₃⟩ ← block r₂
      match accept (.keyword .else) r₃ with
      | none => return ⟨.ifThen cond yes (start.merge yes.span), r₃, by simp; omega⟩
      | some ⟨_, r₄, h₄⟩ =>
        let ⟨no, r₅, h₅⟩ ← block r₄
        return ⟨.ifElse cond yes no (start.merge no.span), r₅, by simp; omega⟩
    | .keyword .while => do
      let ⟨cond, r₁, h₁⟩ ← expression r
      let ⟨_, r₂, h₂⟩ ← expect (.keyword .do) .whileDo r₁
      let ⟨body, r₃, h₃⟩ ← block r₂
      return ⟨.while cond body (start.merge body.span), r₃, by simp; omega⟩
    | .keyword .break => .ok (.behind (.break start) _ r)
    | .keyword .continue => .ok (.behind (.continue start) _ r)
    | .keyword .writeln => do
      let ⟨s, r₁, h₁⟩ ← written start r
      return ⟨s, r₁, by simp; omega⟩
    | _ => .error ⟨.statement, ⟨kind, start⟩ :: r⟩
termination_by 4 * ts.length + 1

end

end Parser
end TinyPascal
