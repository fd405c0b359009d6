import TinyPascal.Tree.Parser.Stmt

/-!
# `Tree.Parser.Program` — reading declarations and programs

```text
program     := ('var' varLine+)* routine* block '.'
varLine     := names ':' type ';'
routine     := 'procedure' name ['(' params ')'] ';' block ';'
             | 'function' name '(' params ')' ':' type ';' block ';'
params      := [param (';' param)*]
param       := names ':' type
names       := name (',' name)*
```
-/

namespace TinyPascal
namespace Parser

/-! ## Variables and parameters -/

/-- One or more names with commas between them. -/
def names (ts : List Token) : Outcome (List Ident) ts.length := do
  let ⟨first, r, h⟩ ← identifier ts
  match accept (.punct .comma) r with
  | none => return ⟨[first], r, h⟩
  | some ⟨_, r₁, h₁⟩ =>
    let ⟨more, r₂, h₂⟩ ← names r₁
    return ⟨first :: more, r₂, by omega⟩
termination_by ts.length

/-- The place where a list of tokens starts. -/
def startOf (ts : List Token) : Span :=
  (ts.head?.map Token.span).getD {}

/-- The names and the type of one line of variables. -/
def varLine (ts : List Token) : Outcome VarDecl ts.length := do
  let ⟨declared, r, h⟩ ← names ts
  let ⟨_, r₁, h₁⟩ ← expect (.punct .colon) .varColon r
  let ⟨(ty, _), r₂, h₂⟩ ← typeName r₁
  let ⟨stop, r₃, h₃⟩ ← expect (.punct .semicolon) .varSemicolon r₂
  return ⟨⟨declared, ty, (startOf ts).merge stop⟩, r₃, by omega⟩

/-- The next token is a name. -/
def atName : List Token → Bool
  | ⟨.ident _, _⟩ :: _ => true
  | _ => false

/-- The lines that one `var` introduces: at least one, and more as long as names follow. -/
def varLines (ts : List Token) : Outcome (List VarDecl) ts.length := do
  let ⟨first, r, h⟩ ← varLine ts
  if atName r then
    let ⟨more, r₁, h₁⟩ ← varLines r
    return ⟨first :: more, r₁, shorter_trans h₁ h⟩
  else
    return ⟨[first], r, h⟩
termination_by ts.length

/-- All variables of a program. -/
def varSections (ts : List Token) : Outcome (List VarDecl) (ts.length + 1) :=
  match accept (.keyword .var) ts with
  | none => .ok (.here [] ts)
  | some ⟨_, r, h⟩ => do
    let ⟨lines, r₁, h₁⟩ ← varLines r
    let ⟨more, r₂, h₂⟩ ← varSections r₁
    return ⟨lines ++ more, r₂, shorter_tail h₂ h₁ h⟩
termination_by ts.length

/-- One group of parameters. -/
def param (ts : List Token) : Outcome Param ts.length := do
  let ⟨declared, r, h⟩ ← names ts
  let ⟨_, r₁, h₁⟩ ← expect (.punct .colon) .paramColon r
  let ⟨(ty, stop), r₂, h₂⟩ ← typeName r₁
  return ⟨⟨declared, ty, (startOf ts).merge stop⟩, r₂, by omega⟩

/-- One or more groups of parameters with semicolons between them. -/
def paramGroups (ts : List Token) : Outcome (List Param) ts.length := do
  let ⟨first, r, h⟩ ← param ts
  match accept (.punct .semicolon) r with
  | none => return ⟨[first], r, h⟩
  | some ⟨_, r₁, h₁⟩ =>
    let ⟨more, r₂, h₂⟩ ← paramGroups r₁
    return ⟨first :: more, r₂, by omega⟩
termination_by ts.length

/-- Parameters after the opening parenthesis, up to and with the closing one. -/
def params (ts : List Token) : Outcome (List Param) ts.length :=
  match accept (.punct .rparen) ts with
  | some ⟨_, r, h⟩ => .ok ⟨[], r, h⟩
  | none => do
    let ⟨groups, r, h⟩ ← paramGroups ts
    let ⟨_, r₁, h₁⟩ ← expect (.punct .rparen) .paramsClose r
    return ⟨groups, r₁, shorter_trans h₁ h⟩

/-! ## Routines -/

/-- The parameters of a procedure, which may be left out with their parentheses. -/
def procedureParams (ts : List Token) : Outcome (List Param) (ts.length + 1) :=
  match accept (.punct .lparen) ts with
  | none => .ok (.here [] ts)
  | some ⟨_, r, h⟩ => do
    let ⟨groups, r₁, h₁⟩ ← params r
    return ⟨groups, r₁, by omega⟩

/-- A procedure, after the keyword at `start`. -/
def procedure (start : Span) (ts : List Token) : Outcome Routine ts.length := do
  let ⟨name, r, h⟩ ← identifier ts
  let ⟨groups, r₁, h₁⟩ ← procedureParams r
  let ⟨_, r₂, h₂⟩ ← expect (.punct .semicolon) .procedureSemicolon r₁
  let ⟨body, r₃, h₃⟩ ← block r₂
  let ⟨stop, r₄, h₄⟩ ← expect (.punct .semicolon) .procedureEnd r₃
  return ⟨⟨name, groups, none, body, start.merge stop⟩, r₄, by omega⟩

/-- A function, after the keyword at `start`. -/
def function (start : Span) (ts : List Token) : Outcome Routine ts.length := do
  let ⟨name, r, h⟩ ← identifier ts
  let ⟨_, r₁, h₁⟩ ← expect (.punct .lparen) .functionOpen r
  let ⟨groups, r₂, h₂⟩ ← params r₁
  let ⟨_, r₃, h₃⟩ ← expect (.punct .colon) .functionColon r₂
  let ⟨(result, _), r₄, h₄⟩ ← typeName r₃
  let ⟨_, r₅, h₅⟩ ← expect (.punct .semicolon) .functionSemicolon r₄
  let ⟨body, r₆, h₆⟩ ← block r₅
  let ⟨stop, r₇, h₇⟩ ← expect (.punct .semicolon) .functionEnd r₆
  return ⟨⟨name, groups, some result, body, start.merge stop⟩, r₇, by omega⟩

/-- All routines of a program. -/
def routines (ts : List Token) : Outcome (List Routine) (ts.length + 1) :=
  match accept (.keyword .procedure) ts with
  | some ⟨start, r, h⟩ => do
    let ⟨first, r₁, h₁⟩ ← procedure start r
    let ⟨more, r₂, h₂⟩ ← routines r₁
    return ⟨first :: more, r₂, shorter_tail h₂ h₁ h⟩
  | none =>
    match accept (.keyword .function) ts with
    | some ⟨start, r, h⟩ => do
      let ⟨first, r₁, h₁⟩ ← function start r
      let ⟨more, r₂, h₂⟩ ← routines r₁
      return ⟨first :: more, r₂, shorter_tail h₂ h₁ h⟩
    | none => .ok (.here [] ts)
termination_by ts.length

/-! ## Programs -/

/-- A whole program, up to and with its final dot. -/
def program (ts : List Token) : Outcome Program ts.length := do
  let ⟨vars, r, h⟩ ← varSections ts
  let ⟨routines, r₁, h₁⟩ ← routines r
  let ⟨main, r₂, h₂⟩ ← block r₁
  let ⟨stop, r₃, h₃⟩ ← expect (.punct .dot) .programDot r₂
  return ⟨⟨vars.map .vars ++ routines.map .routine, main, (startOf ts).merge stop⟩, r₃, by omega⟩

end Parser
end TinyPascal
