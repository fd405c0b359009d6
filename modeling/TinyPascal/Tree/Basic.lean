import TinyPascal.Source.Span

/-!
# `Tree.Basic` — program trees

A program is a list of global declarations and a main block. Every node carries the span of the text
that it was read from; a tree built by hand may carry any span.

## Contents
- **Types and operators.** `Ty`, `BinOp`.
- **Expressions and statements.** `Expr`; `Stmt` and `Block`, which contain each other.
- **Declarations.** `VarDecl`, `Routine` (a procedure or a function), `Decl`, `Program`.
-/

namespace TinyPascal

/-! ## Types and operators -/

/-- The types of values. -/
inductive Ty where
  | integer | boolean
deriving DecidableEq, Repr, Inhabited

/-- A type as it is written. -/
def Ty.name : Ty → String
  | .integer => "integer"
  | .boolean => "boolean"

/-- Operators with two operands. -/
inductive BinOp where
  | add | sub | mul | div | and | or | eq | neq | lt | le | gt | ge
deriving DecidableEq, Repr

namespace BinOp

/-- Every operator, each once. -/
def all : List BinOp :=
  [.add, .sub, .mul, .div, .and, .or, .eq, .neq, .lt, .le, .gt, .ge]

/-- The operator as it is written. -/
def symbol : BinOp → String
  | .add => "+"
  | .sub => "-"
  | .mul => "*"
  | .div => "/"
  | .and => "and"
  | .or => "or"
  | .eq => "="
  | .neq => "<>"
  | .lt => "<"
  | .le => "<="
  | .gt => ">"
  | .ge => ">="

/-- The operator written `symbol`. -/
def ofSymbol? (symbol : String) : Option BinOp :=
  all.find? (fun op => op.symbol = symbol)

/-- Arithmetic operators take and give integers. -/
def isArithmetic : BinOp → Bool
  | .add | .sub | .mul | .div => true
  | _ => false

/-- Logical operators take and give booleans. All that are neither arithmetic nor logical compare two
    values of one type. -/
def isLogical : BinOp → Bool
  | .and | .or => true
  | _ => false

theorem ofSymbol?_symbol (op : BinOp) : ofSymbol? op.symbol = some op := by
  cases op <;> decide

end BinOp

/-! ## Expressions and statements -/

/-- A name, and where it was written. -/
structure Ident where
  name : String
  span : Span
deriving DecidableEq, Repr

/-- Expressions. -/
inductive Expr where
  | int (value : Int) (span : Span)
  | bool (value : Bool) (span : Span)
  | var (name : String) (span : Span)
  | paren (inner : Expr) (span : Span)
  | not (operand : Expr) (span : Span)
  | binary (op : BinOp) (left right : Expr) (span : Span)
  | call (callee : Ident) (args : List Expr) (span : Span)
deriving Repr

namespace Expr

def span : Expr → Span
  | .int _ s | .bool _ s | .var _ s | .paren _ s | .not _ s | .binary _ _ _ s | .call _ _ s => s

/-- Two operands joined by an operator, covering the text of both. -/
def join (op : BinOp) (left right : Expr) : Expr :=
  .binary op left right (left.span.merge right.span)

end Expr

mutual

/-- Statements. -/
inductive Stmt where
  | assign (target : Ident) (value : Expr) (span : Span)
  | call (callee : Ident) (args : List Expr) (span : Span)
  | return (value : Option Expr) (span : Span)
  | ifThen (cond : Expr) (yes : Block) (span : Span)
  | ifElse (cond : Expr) (yes no : Block) (span : Span)
  | while (cond : Expr) (body : Block) (span : Span)
  | break (span : Span)
  | continue (span : Span)
  | write (args : List Expr) (span : Span)

/-- Statements between `begin` and `end`. -/
structure Block where
  statements : List Stmt
  span : Span

end

/-! ## Declarations -/

/-- Global variables of one type. -/
structure VarDecl where
  names : List Ident
  ty : Ty
  span : Span

/-- Parameters of one type, next to each other. -/
structure Param where
  names : List Ident
  ty : Ty
  span : Span

/-- The single parameters of a list of groups, in order. -/
def Param.flatten (groups : List Param) : List (Ident × Ty) :=
  groups.flatMap (fun g => g.names.map (fun name => (name, g.ty)))

/-- A routine: a function if it has a result type, else a procedure. -/
structure Routine where
  name : Ident
  params : List Param
  result : Option Ty
  body : Block
  span : Span

/-- Global declarations. -/
inductive Decl where
  | vars (decl : VarDecl)
  | routine (routine : Routine)

/-- A program: its declarations in order, and the block that is run. -/
structure Program where
  declarations : List Decl
  main : Block
  span : Span

end TinyPascal
