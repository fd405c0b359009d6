import TinyPascal.Scope.Table
import TinyPascal.Typing.Error

/-!
# `Typing.Expr` — types of expressions

There are two types and no conversions, so every rule asks for equal types. The type of an expression
depends on the table of names and on nothing else, and finding it changes nothing. Operands and
arguments are looked at from left to right, and the first violation is the one reported.

## Contents
- **Names.** `Table.storageType` for names used as values, `Table.signatureFor` for names called.
- **Expressions.** `Expr.type`; `checkArgs` for the arguments of a call; `callResult` for a whole call.
-/

namespace TinyPascal

/-! ## Names -/

namespace Table

/-- The symbol of a name that must be declared. -/
def resolve (t : Table) (name : String) (span : Span) : Except SemanticError Symbol :=
  match t.lookup? name with
  | some symbol => .ok symbol
  | none => .error ⟨.undeclared name, span⟩

/-- The type of a name that must be a variable or a parameter. -/
def storageType (t : Table) (name : String) (span : Span) : Except SemanticError Ty := do
  let symbol ← t.resolve name span
  match symbol.storage? with
  | some ty => return ty
  | none => throw ⟨.notAVariable name, span⟩

/-- The signature of a name that must be a routine with `count` parameters; `span` is the place of the
    call. -/
def signatureFor (t : Table) (callee : Ident) (count : Nat) (span : Span) :
    Except SemanticError Signature := do
  let symbol ← t.resolve callee.name callee.span
  match symbol.signature? with
  | none => throw ⟨.notCallable callee.name, callee.span⟩
  | some signature =>
    if signature.params.length = count then return signature
    else throw ⟨.arityMismatch callee.name signature.params.length count, span⟩

end Table

/-! ## Expressions -/

/-- The type found must be the one expected. -/
def expectType (context : String) (expected found : Ty) (span : Span) :
    Except SemanticError Unit :=
  if expected = found then .ok () else .error ⟨.typeMismatch context expected found, span⟩

namespace BinOp

/-- The type of the result of an operator, given its operands and their places. -/
def resultType (op : BinOp) (left right : Ty) (leftSpan rightSpan : Span) :
    Except SemanticError Ty := do
  let context := s!"operand of '{op.symbol}'"
  if op.isArithmetic then
    expectType context .integer left leftSpan
    expectType context .integer right rightSpan
    return .integer
  else if op.isLogical then
    expectType context .boolean left leftSpan
    expectType context .boolean right rightSpan
    return .boolean
  else
    expectType context left right rightSpan
    return .boolean

end BinOp

mutual

/-- The type of an expression. -/
def Expr.type (t : Table) : Expr → Except SemanticError Ty
  | .int _ _ => .ok .integer
  | .bool _ _ => .ok .boolean
  | .var name span => t.storageType name span
  | .paren inner _ => inner.type t
  | .not operand _ => do
    let ty ← operand.type t
    expectType "operand of 'not'" .boolean ty operand.span
    return .boolean
  | .binary op left right _ => do
    let leftTy ← left.type t
    let rightTy ← right.type t
    op.resultType leftTy rightTy left.span right.span
  | .call callee args span => do
    let signature ← t.signatureFor callee args.length span
    checkArgs t callee.name 1 signature.params args
    match signature.result with
    | some ty => return ty
    | none => throw ⟨.noValue callee.name, span⟩

/-- Arguments have the types of the parameters; `number` counts the first of them. -/
def checkArgs (t : Table) (callee : String) (number : Nat) :
    List Ty → List Expr → Except SemanticError Unit
  | expected :: params, arg :: args => do
    let found ← arg.type t
    expectType s!"argument {number} of '{callee}'" expected found arg.span
    checkArgs t callee (number + 1) params args
  | _, _ => .ok ()

end

/-- The result type of a call, none for a procedure; `span` is the place of the call. -/
def callResult (t : Table) (callee : Ident) (args : List Expr) (span : Span) :
    Except SemanticError (Option Ty) := do
  let signature ← t.signatureFor callee args.length span
  checkArgs t callee.name 1 signature.params args
  return signature.result

/-- Every expression has a type. -/
def checkValues (t : Table) : List Expr → Except SemanticError Unit
  | [] => .ok ()
  | e :: es => do
    discard <| e.type t
    checkValues t es

end TinyPascal
