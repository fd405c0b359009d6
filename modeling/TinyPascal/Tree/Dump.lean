import TinyPascal.Tree.Basic

/-!
# `Tree.Dump` — a tree as indented text

A dump shows every node with its fields by name, one item a line, four blanks deeper than the node that
holds it:

```text
Block {
    statements: [],
    span: Span {
        start: 0,
        ...
    },
}
```

## Contents
- **Layout.** `Dump` is a text with nested groups of items, `Dump.text` lays it out.
- **Trees.** One function for each kind of node, `Program.dump` for the whole.
-/

namespace TinyPascal

/-! ## Layout -/

/-- A text with nested groups. -/
inductive Dump where
  | atom (text : String)
  | field (name : String) (value : Dump)
  | group (opening : String) (items : List Dump) (closing : String)

namespace Dump

/-- A node with named fields. -/
def node (name : String) (fields : List Dump) : Dump :=
  .group (name ++ " \x7b") fields "\x7d"

/-- A named alternative that holds one value. -/
def case (name : String) (value : Dump) : Dump :=
  .group (name ++ "(") [value] ")"

/-- Items in a row. An empty row takes no lines of its own. -/
def list : List Dump → Dump
  | [] => .atom "[]"
  | items => .group "[" items "]"

/-- A value that may be missing. -/
def option : Option Dump → Dump
  | none => .atom "None"
  | some value => case "Some" value

def nat (n : Nat) : Dump := .atom n.repr

/-- A name between double quotes. -/
def name (s : String) : Dump := .atom ("\"" ++ s ++ "\"")

mutual

/-- The text of a dump whose first line is already indented by `margin`. -/
def text (margin : String) : Dump → String
  | .atom s => s
  | .field name value => name ++ ": " ++ text margin value
  | .group opening items closing =>
    opening ++ "\n" ++ itemsText (margin ++ "    ") items ++ margin ++ closing

/-- Items, each on a line of its own and with a comma after it. -/
def itemsText (margin : String) : List Dump → String
  | [] => ""
  | d :: more => margin ++ text margin d ++ ",\n" ++ itemsText margin more

end

end Dump

/-! ## Trees -/

def Span.dump (s : Span) : Dump :=
  .node "Span"
    [.field "start" (.nat s.start), .field "end" (.nat s.stop),
     .field "line" (.nat s.line), .field "column" (.nat s.column)]

/-- The field that holds the place of a node. -/
def Span.field (s : Span) : Dump :=
  .field "span" s.dump

def Ty.dump : Ty → Dump
  | .integer => .atom "Integer"
  | .boolean => .atom "Boolean"

/-- The name of an operator. -/
def BinOp.title : BinOp → String
  | .add => "Add"
  | .sub => "Sub"
  | .mul => "Mul"
  | .div => "Div"
  | .and => "And"
  | .or => "Or"
  | .eq => "Eq"
  | .neq => "Neq"
  | .lt => "Lt"
  | .le => "Lte"
  | .gt => "Gt"
  | .ge => "Gte"

def Ident.dump (x : Ident) : Dump :=
  .node "Ident" [.field "name" (.name x.name), x.span.field]

/-- A call, with its arguments already written. -/
def dumpCall (callee : Ident) (args : List Dump) : Dump :=
  .case "Call" (.node "Call" [.field "callee" callee.dump, .field "args" (.list args)])

/-- An expression of the given kind. -/
def dumpExpr (kind : Dump) (span : Span) : Dump :=
  .node "Expr" [.field "kind" kind, span.field]

mutual

def Expr.dump : Expr → Dump
  | .int n s => dumpExpr (.case "IntLit" (.atom n.repr)) s
  | .bool true s => dumpExpr (.case "BoolLit" (.atom "true")) s
  | .bool false s => dumpExpr (.case "BoolLit" (.atom "false")) s
  | .var x s => dumpExpr (.case "Ident" (.name x)) s
  | .paren inner s => dumpExpr (.case "Paren" inner.dump) s
  | .not operand s => dumpExpr (.case "Not" operand.dump) s
  | .binary op left right s =>
    dumpExpr (.node "Binary" [.field "op" (.atom op.title), .field "left" left.dump,
      .field "right" right.dump]) s
  | .call callee args s => dumpExpr (dumpCall callee (dumpExprs args)) s

def dumpExprs : List Expr → List Dump
  | [] => []
  | e :: es => e.dump :: dumpExprs es

end

/-- A statement of the given kind. -/
def dumpStmt (kind : Dump) (span : Span) : Dump :=
  .node "Stmt" [.field "kind" kind, span.field]

/-- A conditional statement. -/
def dumpIf (cond yes no : Dump) : Dump :=
  .node "If" [.field "cond" cond, .field "then_block" yes, .field "else_block" no]

mutual

def Stmt.dump : Stmt → Dump
  | .assign target value s =>
    dumpStmt (.node "Assign" [.field "target" target.dump, .field "value" value.dump]) s
  | .call callee args s => dumpStmt (dumpCall callee (dumpExprs args)) s
  | .return value s => dumpStmt (.case "Return" (.option (value.map Expr.dump))) s
  | .ifThen cond yes s => dumpStmt (dumpIf cond.dump yes.dump (.option none)) s
  | .ifElse cond yes no s => dumpStmt (dumpIf cond.dump yes.dump (.option (some no.dump))) s
  | .while cond body s =>
    dumpStmt (.node "While" [.field "cond" cond.dump, .field "body" body.dump]) s
  | .break s => dumpStmt (.atom "Break") s
  | .continue s => dumpStmt (.atom "Continue") s
  | .write args s => dumpStmt (.case "Write" (.list (dumpExprs args))) s

def Block.dump : Block → Dump
  | ⟨statements, span⟩ =>
    .node "Block" [.field "statements" (.list (dumpStmts statements)), span.field]

def dumpStmts : List Stmt → List Dump
  | [] => []
  | s :: more => s.dump :: dumpStmts more

end

/-- The fields that a line of variables and a group of parameters share. -/
def dumpNames (names : List Ident) (ty : Ty) (span : Span) : List Dump :=
  [.field "names" (.list (names.map Ident.dump)), .field "ty" ty.dump, span.field]

def Param.dump (p : Param) : Dump :=
  .node "Param" (dumpNames p.names p.ty p.span)

def Routine.dump (r : Routine) : Dump :=
  let head := [.field "name" r.name.dump, .field "params" (.list (r.params.map Param.dump))]
  let tail := [.field "body" r.body.dump, r.span.field]
  match r.result with
  | none => .case "Procedure" (.node "ProcDecl" (head ++ tail))
  | some ty =>
    .case "Function" (.node "FuncDecl" (head ++ [.field "return_type" ty.dump] ++ tail))

def Decl.dump : Decl → Dump
  | .vars d => .case "Var" (.node "VarDecl" (dumpNames d.names d.ty d.span))
  | .routine r => r.dump

def Program.dump (p : Program) : Dump :=
  .node "Program"
    [.field "declarations" (.list (p.declarations.map Decl.dump)), .field "main" p.main.dump,
     p.span.field]

end TinyPascal
