import TinyPascal.Proofs.Grammar.Programs

/-!
# `Proofs.Tree.Print` — trees written out as tokens

A tree is printed without parentheses of its own: only a parenthesised node has them. So not every tree
prints as a text that reads back as the same tree. The **canonical** trees do: their expressions keep
to the tiers of the operators.

## Contents
- **Tiers.** `Tier`, the positions of an expression from the loosest to the tightest. `BinOp.tier`,
  `BinOp.left` and `BinOp.right`: where an operator and its operands may stand.
- **Printing.** `Program.print`, the kinds of the tokens of a tree.
- **Canonical trees.** `Program.canonical`.
- **Bare trees.** `Program.bare`, the tree without its places.
-/

namespace TinyPascal

open TinyPascal.Parser (tyWord)

/-! ## Tiers -/

/-- Where an expression stands: anywhere, as an operand of a comparison, as an operand of a sum, or as an
    operand of a product. -/
inductive Tier where
  | expression | sum | product | factor
deriving DecidableEq, Repr

/-- Tighter positions have higher ranks. -/
def Tier.rank : Tier → Nat
  | .expression => 0
  | .sum => 1
  | .product => 2
  | .factor => 3

namespace BinOp

/-- The tightest position in which the operator stands without parentheses. -/
def tier : BinOp → Tier
  | .eq | .neq | .lt | .le | .gt | .ge => .expression
  | .add | .sub | .or => .sum
  | .mul | .div | .and => .product

/-- The position of the left operand. Sums and products group to the left, comparisons do not chain. -/
def left (op : BinOp) : Tier :=
  match op.tier with
  | .expression => .sum
  | tier => tier

/-- The position of the right operand. -/
def right (op : BinOp) : Tier :=
  match op.tier with
  | .expression => .sum
  | .sum => .product
  | .product | .factor => .factor

/-- The token of the operator. -/
def kind : BinOp → Token.Kind
  | .add => .operator .plus
  | .sub => .operator .minus
  | .mul => .operator .star
  | .div => .operator .slash
  | .and => .keyword .and
  | .or => .keyword .or
  | .eq => .operator .eq
  | .neq => .operator .notEq
  | .lt => .operator .lt
  | .le => .operator .ltEq
  | .gt => .operator .gt
  | .ge => .operator .gtEq

end BinOp

/-- The operator may stand in the position without parentheses. -/
def Tier.admits (tier : Tier) (op : BinOp) : Bool :=
  tier.rank ≤ op.tier.rank

/-! ## Printing -/

/-- Items in a row with a mark between any two of them. -/
def between (mark : Punct) : List (List Token.Kind) → List Token.Kind
  | [] => []
  | [item] => item
  | item :: next :: more => item ++ .punct mark :: between mark (next :: more)

/-- The reserved word for a truth value. -/
def boolWord : Bool → Keyword
  | true => .true
  | false => .false

/-- Something between parentheses. -/
def parens (inside : List Token.Kind) : List Token.Kind :=
  .punct .lparen :: (inside ++ [.punct .rparen])

mutual

def Expr.print : Expr → List Token.Kind
  | .int value _ => [.int value]
  | .bool value _ => [.keyword (boolWord value)]
  | .var name _ => [.ident name]
  | .paren inner _ => parens inner.print
  | .not operand _ => .keyword .not :: operand.print
  | .binary op left right _ => left.print ++ op.kind :: right.print
  | .call callee args _ => .ident callee.name :: parens (between .comma (printEach args))

def printEach : List Expr → List (List Token.Kind)
  | [] => []
  | e :: es => e.print :: printEach es

end

@[simp] theorem printEach_eq_map (es : List Expr) : printEach es = es.map Expr.print := by
  induction es with
  | nil => rfl
  | cons e es ih => rw [printEach, ih, List.map_cons]

/-- Arguments with their parentheses. -/
def printArgs (args : List Expr) : List Token.Kind :=
  parens (between .comma (args.map Expr.print))

mutual

def Stmt.print : Stmt → List Token.Kind
  | .assign target value _ => .ident target.name :: .operator .assign :: value.print
  | .call callee args _ => .ident callee.name :: printArgs args
  | .return none _ => [.keyword .return]
  | .return (some value) _ => .keyword .return :: value.print
  | .ifThen cond yes _ => .keyword .if :: (cond.print ++ .keyword .then :: yes.print)
  | .ifElse cond yes no _ =>
    .keyword .if :: (cond.print ++ .keyword .then :: (yes.print ++ .keyword .else :: no.print))
  | .while cond body _ => .keyword .while :: (cond.print ++ .keyword .do :: body.print)
  | .break _ => [.keyword .break]
  | .continue _ => [.keyword .continue]
  | .write args _ => .keyword .writeln :: printArgs args

/-- A block has no semicolon behind its last statement. -/
def Block.print : Block → List Token.Kind
  | ⟨statements, _⟩ =>
    .keyword .begin :: (between .semicolon (printStmts statements) ++ [.keyword .end])

def printStmts : List Stmt → List (List Token.Kind)
  | [] => []
  | s :: more => s.print :: printStmts more

end

/-- Names with commas between them. -/
def printNames (names : List Ident) : List Token.Kind :=
  between .comma (names.map (fun name => [.ident name.name]))

/-- Every declaration of variables has its own `var`. -/
def VarDecl.print (d : VarDecl) : List Token.Kind :=
  .keyword .var :: (printNames d.names ++
    [.punct .colon, .keyword (tyWord d.ty), .punct .semicolon])

def Param.print (p : Param) : List Token.Kind :=
  printNames p.names ++ [.punct .colon, .keyword (tyWord p.ty)]

/-- Parameters with their parentheses. -/
def printParams (groups : List Param) : List Token.Kind :=
  parens (between .semicolon (groups.map Param.print))

/-- A procedure without parameters has no parentheses, a function without parameters has. -/
def Routine.print (r : Routine) : List Token.Kind :=
  match r.result with
  | none =>
    .keyword .procedure :: .ident r.name.name ::
      ((if r.params.isEmpty then [] else printParams r.params) ++
        .punct .semicolon :: (r.body.print ++ [.punct .semicolon]))
  | some ty =>
    .keyword .function :: .ident r.name.name ::
      (printParams r.params ++ .punct .colon :: .keyword (tyWord ty) ::
        .punct .semicolon :: (r.body.print ++ [.punct .semicolon]))

def Decl.print : Decl → List Token.Kind
  | .vars d => d.print
  | .routine r => r.print

/-- The kinds of the tokens of a program, in order. -/
def Program.print (tree : Program) : List Token.Kind :=
  tree.declarations.flatMap Decl.print ++ (tree.main.print ++ [.punct .dot])

/-! ## Canonical trees -/

mutual

/-- The expression keeps to the tiers if it stands in the given position. -/
def Expr.canonical : Tier → Expr → Bool
  | _, .int _ _ | _, .bool _ _ | _, .var _ _ => true
  | _, .paren inner _ => inner.canonical .expression
  | _, .not operand _ => operand.canonical .factor
  | tier, .binary op left right _ =>
    tier.admits op && left.canonical op.left && right.canonical op.right
  | _, .call _ args _ => canonicalArgs args

def canonicalArgs : List Expr → Bool
  | [] => true
  | e :: es => e.canonical .expression && canonicalArgs es

end

mutual

def Stmt.canonical : Stmt → Bool
  | .assign _ value _ => value.canonical .expression
  | .call _ args _ | .write args _ => canonicalArgs args
  | .return value _ => value.all (Expr.canonical .expression)
  | .ifThen cond yes _ => cond.canonical .expression && yes.canonical
  | .ifElse cond yes no _ => cond.canonical .expression && yes.canonical && no.canonical
  | .while cond body _ => cond.canonical .expression && body.canonical
  | .break _ | .continue _ => true

def Block.canonical : Block → Bool
  | ⟨statements, _⟩ => canonicalStmts statements

def canonicalStmts : List Stmt → Bool
  | [] => true
  | s :: more => s.canonical && canonicalStmts more

end

/-- Names are declared, and the expressions of a routine keep to the tiers. -/
def Decl.canonical : Decl → Bool
  | .vars d => !d.names.isEmpty
  | .routine r => r.params.all (fun p => !p.names.isEmpty) && r.body.canonical

def Decl.isRoutine : Decl → Bool
  | .vars _ => false
  | .routine _ => true

/-- No variables are declared behind a routine. -/
def varsFirst : List Decl → Bool
  | [] => true
  | .vars _ :: more => varsFirst more
  | .routine _ :: more => more.all Decl.isRoutine

/-- Variables are declared before routines, no list of names is empty, and all expressions keep to the
    tiers. -/
def Program.canonical (tree : Program) : Bool :=
  varsFirst tree.declarations && tree.declarations.all Decl.canonical && tree.main.canonical

/-! ## Bare trees -/

def Ident.bare (name : Ident) : Ident :=
  ⟨name.name, {}⟩

mutual

def Expr.bare : Expr → Expr
  | .int value _ => .int value {}
  | .bool value _ => .bool value {}
  | .var name _ => .var name {}
  | .paren inner _ => .paren inner.bare {}
  | .not operand _ => .not operand.bare {}
  | .binary op left right _ => .binary op left.bare right.bare {}
  | .call callee args _ => .call callee.bare (bareArgs args) {}

def bareArgs : List Expr → List Expr
  | [] => []
  | e :: es => e.bare :: bareArgs es

end

mutual

def Stmt.bare : Stmt → Stmt
  | .assign target value _ => .assign target.bare value.bare {}
  | .call callee args _ => .call callee.bare (bareArgs args) {}
  | .return value _ => .return (value.map Expr.bare) {}
  | .ifThen cond yes _ => .ifThen cond.bare yes.bare {}
  | .ifElse cond yes no _ => .ifElse cond.bare yes.bare no.bare {}
  | .while cond body _ => .while cond.bare body.bare {}
  | .break _ => .break {}
  | .continue _ => .continue {}
  | .write args _ => .write (bareArgs args) {}

def Block.bare : Block → Block
  | ⟨statements, _⟩ => ⟨bareStmts statements, {}⟩

def bareStmts : List Stmt → List Stmt
  | [] => []
  | s :: more => s.bare :: bareStmts more

end

def VarDecl.bare (d : VarDecl) : VarDecl :=
  ⟨d.names.map Ident.bare, d.ty, {}⟩

def Param.bare (p : Param) : Param :=
  ⟨p.names.map Ident.bare, p.ty, {}⟩

def Routine.bare (r : Routine) : Routine :=
  ⟨r.name.bare, r.params.map Param.bare, r.result, r.body.bare, {}⟩

def Decl.bare : Decl → Decl
  | .vars d => .vars d.bare
  | .routine r => .routine r.bare

/-- The tree with no places: two trees that differ only in their places are the same without them. -/
def Program.bare (tree : Program) : Program :=
  ⟨tree.declarations.map Decl.bare, tree.main.bare, {}⟩

end TinyPascal
