import TinyPascal.Tree.Parser.Basic

/-!
# `Tree.Parser.Expr` — reading expressions

```text
expression  := sum [relational sum]
sum         := product (additive product)*
product     := factor (multiplicative factor)*
factor      := int | true | false | name | name arguments | '(' expression ')' | 'not' factor
arguments   := '(' [expression (',' expression)*] ')'
```

Sums and products group to the left: `sumTail left` reads what follows the operand `left`. A comparison
does not go on with a second one. All functions end because each call has fewer tokens, or as many and
a lower rank.
-/

namespace TinyPascal
namespace Parser

mutual

/-- An expression: a sum, or two sums compared. -/
def expression (ts : List Token) : Outcome Expr ts.length := do
  let ⟨left, r, h⟩ ← sum ts
  match acceptOp relational? r with
  | none => return ⟨left, r, h⟩
  | some ⟨op, r₁, h₁⟩ =>
    let ⟨right, r₂, h₂⟩ ← sum r₁
    return ⟨.join op left right, r₂, by omega⟩
termination_by 8 * ts.length + 4

/-- Products joined by additive operators. -/
def sum (ts : List Token) : Outcome Expr ts.length := do
  let ⟨left, r, h⟩ ← product ts
  let ⟨whole, r₁, h₁⟩ ← sumTail left r
  return ⟨whole, r₁, by omega⟩
termination_by 8 * ts.length + 3

/-- The rest of a sum that starts with `left`. -/
def sumTail (left : Expr) (ts : List Token) : Outcome Expr (ts.length + 1) :=
  match acceptOp additive? ts with
  | none => .ok (.here left ts)
  | some ⟨op, r, h⟩ => do
    let ⟨right, r₁, h₁⟩ ← product r
    let ⟨whole, r₂, h₂⟩ ← sumTail (.join op left right) r₁
    return ⟨whole, r₂, shorter_tail h₂ h₁ h⟩
termination_by 8 * ts.length

/-- Factors joined by multiplicative operators. -/
def product (ts : List Token) : Outcome Expr ts.length := do
  let ⟨left, r, h⟩ ← factor ts
  let ⟨whole, r₁, h₁⟩ ← productTail left r
  return ⟨whole, r₁, by omega⟩
termination_by 8 * ts.length + 2

/-- The rest of a product that starts with `left`. -/
def productTail (left : Expr) (ts : List Token) : Outcome Expr (ts.length + 1) :=
  match acceptOp multiplicative? ts with
  | none => .ok (.here left ts)
  | some ⟨op, r, h⟩ => do
    let ⟨right, r₁, h₁⟩ ← factor r
    let ⟨whole, r₂, h₂⟩ ← productTail (.join op left right) r₁
    return ⟨whole, r₂, shorter_tail h₂ h₁ h⟩
termination_by 8 * ts.length

/-- A literal, a name, a call, an expression in parentheses, or a negated factor. -/
def factor (ts : List Token) : Outcome Expr ts.length :=
  match ts with
  | [] => .error ⟨.factor, []⟩
  | ⟨kind, start⟩ :: r =>
    match kind with
    | .int value => .ok (.behind (.int value start) _ r)
    | .keyword .true => .ok (.behind (.bool true start) _ r)
    | .keyword .false => .ok (.behind (.bool false start) _ r)
    | .ident name =>
      match accept (.punct .lparen) r with
      | none => .ok (.behind (.var name start) _ r)
      | some ⟨_, r₁, h₁⟩ => do
        let ⟨(args, stop), r₂, h₂⟩ ← arguments .callClose r₁
        return ⟨.call ⟨name, start⟩ args (start.merge stop), r₂, by simp; omega⟩
    | .punct .lparen => do
      let ⟨inner, r₁, h₁⟩ ← expression r
      let ⟨stop, r₂, h₂⟩ ← expect (.punct .rparen) .parenClose r₁
      return ⟨.paren inner (start.merge stop), r₂, by simp; omega⟩
    | .keyword .not => do
      let ⟨operand, r₁, h₁⟩ ← factor r
      return ⟨.not operand (start.merge operand.span), r₁, by simp; omega⟩
    | _ => .error ⟨.factor, ⟨kind, start⟩ :: r⟩
termination_by 8 * ts.length + 1

/-- Arguments after the opening parenthesis, with the place of the closing one. -/
def arguments (close : Expectation) (ts : List Token) : Outcome (List Expr × Span) ts.length :=
  match accept (.punct .rparen) ts with
  | some ⟨stop, r, h⟩ => .ok ⟨([], stop), r, h⟩
  | none => do
    let ⟨args, r, h⟩ ← expressions ts
    let ⟨stop, r₁, h₁⟩ ← expect (.punct .rparen) close r
    return ⟨(args, stop), r₁, shorter_trans h₁ h⟩
termination_by 8 * ts.length + 6

/-- One or more expressions with commas between them. -/
def expressions (ts : List Token) : Outcome (List Expr) ts.length := do
  let ⟨first, r, h⟩ ← expression ts
  match accept (.punct .comma) r with
  | none => return ⟨[first], r, h⟩
  | some ⟨_, r₁, h₁⟩ =>
    let ⟨more, r₂, h₂⟩ ← expressions r₁
    return ⟨first :: more, r₂, by omega⟩
termination_by 8 * ts.length + 5

end

end Parser
end TinyPascal
