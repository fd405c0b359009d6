import TinyPascal.Proofs.Tree.Print

/-!
# `Proofs.Tree.Core` — trees without places and parentheses

Parentheses say how a text is to be read, and places where it stood. Once there is a tree, neither has
anything left to decide. The **core** of a tree is what remains without them: every place is forgotten,
and what stood in parentheses stands there alone.

## Contents
- **Cores.** `Program.core`, and the cores of its parts.
- **What a core keeps.** `length_coreArgs`, `flatten_bare`: arguments, and parameters with their types.
-/

namespace TinyPascal

/-! ## Cores -/

mutual

/-- An expression without places and without parentheses. -/
def Expr.core : Expr → Expr
  | .int value _ => .int value {}
  | .bool value _ => .bool value {}
  | .var name _ => .var name {}
  | .paren inner _ => inner.core
  | .not operand _ => .not operand.core {}
  | .binary op left right _ => .binary op left.core right.core {}
  | .call callee args _ => .call callee.bare (coreArgs args) {}

def coreArgs : List Expr → List Expr
  | [] => []
  | e :: es => e.core :: coreArgs es

end

mutual

def Stmt.core : Stmt → Stmt
  | .assign target value _ => .assign target.bare value.core {}
  | .call callee args _ => .call callee.bare (coreArgs args) {}
  | .return value _ => .return (value.map Expr.core) {}
  | .ifThen cond yes _ => .ifThen cond.core yes.core {}
  | .ifElse cond yes no _ => .ifElse cond.core yes.core no.core {}
  | .while cond body _ => .while cond.core body.core {}
  | .break _ => .break {}
  | .continue _ => .continue {}
  | .write args _ => .write (coreArgs args) {}

def Block.core : Block → Block
  | ⟨statements, _⟩ => ⟨coreStmts statements, {}⟩

def coreStmts : List Stmt → List Stmt
  | [] => []
  | s :: more => s.core :: coreStmts more

end

def Routine.core (r : Routine) : Routine :=
  ⟨r.name.bare, r.params.map Param.bare, r.result, r.body.core, {}⟩

def Decl.core : Decl → Decl
  | .vars d => .vars d.bare
  | .routine r => .routine r.core

/-- **The core of a tree**: the tree with no places, and with what stood in parentheses in place of the
    parentheses. -/
def Program.core (p : Program) : Program :=
  ⟨p.declarations.map Decl.core, p.main.core, {}⟩

/-! ## What a core keeps -/

/-- The core of an expression has lost its span. -/
theorem Expr.span_core : ∀ e : Expr, e.core.span = {}
  | .paren inner _ => inner.span_core
  | .int _ _ | .bool _ _ | .var _ _ | .not _ _ | .binary _ _ _ _ | .call _ _ _ => rfl

theorem length_coreArgs (es : List Expr) : (coreArgs es).length = es.length := by
  induction es with
  | nil => rfl
  | cons e es ih => rw [coreArgs, List.length_cons, List.length_cons, ih]

theorem Block.statements_core (b : Block) : b.core.statements = coreStmts b.statements := by
  cases b
  rfl

/-- The parameters keep their names and types. -/
theorem flatten_bare (groups : List Param) :
    Param.flatten (groups.map Param.bare) =
      (Param.flatten groups).map (fun p => (p.1.bare, p.2)) := by
  unfold Param.flatten
  rw [List.flatMap_map, List.map_flatMap]
  congr 1
  funext g
  show (g.names.map Ident.bare).map (fun name => (name, g.ty)) = _
  rw [List.map_map, List.map_map]
  rfl

end TinyPascal
