import TinyPascal.Tree.Basic

/-!
# `Proofs.Tree.Occurrences` — what occurs in a tree

Lists of the things that occur in a program, in textual order, and what the theory asks of them.

## Contents
- **Names.** `Expr.identifiers`, `Stmt.targets`, `Program.identifiers`: every identifier that a program
  spells, declared or used.
- **Expressions.** `Stmt.exprs`: the expressions of a statement, those of its blocks included. A call
  statement counts as the call expression that it consists of. `Expr.nested`, `Program.exprs`: expressions
  at any depth.
- **Statements.** `Stmt.nested`, `Program.stmts`: statements at any depth.
- **Capture.** A name is read where its value is consumed and not where it is written down.
  `Expr.settled` says that no call comes between the two: no call stands to the right of a bare name,
  neither in an operator nor in an argument list.
-/

namespace TinyPascal

/-! ## Expressions -/

mutual

/-- The identifiers of an expression, callees included. -/
def Expr.identifiers : Expr → List String
  | .int _ _ | .bool _ _ => []
  | .var name _ => [name]
  | .paren inner _ => inner.identifiers
  | .not operand _ => operand.identifiers
  | .binary _ left right _ => left.identifiers ++ right.identifiers
  | .call callee args _ => callee.name :: identifiersOf args

def identifiersOf : List Expr → List String
  | [] => []
  | e :: es => e.identifiers ++ identifiersOf es

end

mutual

/-- A call occurs in the expression. -/
def Expr.hasCall : Expr → Bool
  | .int _ _ | .bool _ _ | .var _ _ => false
  | .paren inner _ => inner.hasCall
  | .not operand _ => operand.hasCall
  | .binary _ left right _ => left.hasCall || right.hasCall
  | .call _ _ _ => true

def anyCall : List Expr → Bool
  | [] => false
  | e :: es => e.hasCall || anyCall es

end

mutual

/-- The expressions inside an expression, at any depth. -/
def Expr.nested : Expr → List Expr
  | .int _ _ | .bool _ _ | .var _ _ => []
  | .paren inner _ => inner :: inner.nested
  | .not operand _ => operand :: operand.nested
  | .binary _ left right _ => left :: left.nested ++ right :: right.nested
  | .call _ args _ => nestedOf args

/-- Expressions, and those inside them. -/
def nestedOf : List Expr → List Expr
  | [] => []
  | e :: es => e :: e.nested ++ nestedOf es

end

/-- The identifier that an expression consists of, but for parentheses. -/
def Expr.name? : Expr → Option String
  | .var name _ => some name
  | .paren inner _ => inner.name?
  | _ => none

/-- A bare name has no calls to its right: if `e` is one, `calls` is false. -/
def Expr.clearOf (e : Expr) (calls : Bool) : Bool :=
  e.name?.isNone || !calls

mutual

/-- No call stands between a bare name and the point where its value is consumed. -/
def Expr.settled : Expr → Bool
  | .int _ _ | .bool _ _ | .var _ _ => true
  | .paren inner _ => inner.settled
  | .not operand _ => operand.settled
  | .binary _ left right _ => left.settled && right.settled && left.clearOf right.hasCall
  | .call _ args _ => settledArgs args

def settledArgs : List Expr → Bool
  | [] => true
  | e :: es => e.settled && settledArgs es && e.clearOf (anyCall es)

end

/-! ## Statements -/

mutual

/-- The expressions of a statement, those of its blocks included. -/
def Stmt.exprs : Stmt → List Expr
  | .assign _ value _ => [value]
  | .call callee args span => [.call callee args span]
  | .return value _ => value.toList
  | .ifThen cond yes _ => cond :: yes.exprs
  | .ifElse cond yes no _ => cond :: (yes.exprs ++ no.exprs)
  | .while cond body _ => cond :: body.exprs
  | .break _ | .continue _ => []
  | .write args _ => args

def Block.exprs : Block → List Expr
  | ⟨statements, _⟩ => exprsOf statements

def exprsOf : List Stmt → List Expr
  | [] => []
  | s :: more => s.exprs ++ exprsOf more

end

mutual

/-- The names that a statement assigns to, at any depth. -/
def Stmt.targets : Stmt → List String
  | .assign target _ _ => [target.name]
  | .ifThen _ yes _ => yes.targets
  | .ifElse _ yes no _ => yes.targets ++ no.targets
  | .while _ body _ => body.targets
  | .call _ _ _ | .return _ _ | .break _ | .continue _ | .write _ _ => []

def Block.targets : Block → List String
  | ⟨statements, _⟩ => targetsOf statements

def targetsOf : List Stmt → List String
  | [] => []
  | s :: more => s.targets ++ targetsOf more

end

mutual

/-- The statements inside a statement, at any depth. -/
def Stmt.nested : Stmt → List Stmt
  | .ifThen _ yes _ => yes.stmts
  | .ifElse _ yes no _ => yes.stmts ++ no.stmts
  | .while _ body _ => body.stmts
  | .assign _ _ _ | .call _ _ _ | .return _ _ | .break _ | .continue _ | .write _ _ => []

/-- The statements of a block, at any depth. -/
def Block.stmts : Block → List Stmt
  | ⟨statements, _⟩ => stmtsOf statements

def stmtsOf : List Stmt → List Stmt
  | [] => []
  | s :: more => s :: s.nested ++ stmtsOf more

end

/-- The identifiers of a block: those it assigns to and those of its expressions. -/
def Block.identifiers (b : Block) : List String :=
  b.targets ++ b.exprs.flatMap Expr.identifiers

/-! ## Programs -/

/-- The names of the parameters of a routine, in order. -/
def Routine.paramNames (r : Routine) : List String :=
  (Param.flatten r.params).map (fun param => param.1.name)

/-- The routine that a declaration declares. -/
def Decl.routine? : Decl → Option Routine
  | .vars _ => none
  | .routine r => some r

/-- The identifiers of a declaration, with those of the body of a routine. -/
def Decl.identifiers : Decl → List String
  | .vars decl => decl.names.map Ident.name
  | .routine r => r.name.name :: (r.paramNames ++ r.body.identifiers)

namespace Program

/-- The routines of a program, in order. -/
def routines (p : Program) : List Routine :=
  p.declarations.filterMap Decl.routine?

/-- The blocks that a program consists of: the bodies of its routines, and the main block. -/
def bodies (p : Program) : List Block :=
  p.routines.map Routine.body ++ [p.main]

/-- Every expression of a program, at any depth. -/
def exprs (p : Program) : List Expr :=
  nestedOf (p.bodies.flatMap Block.exprs)

/-- Every statement of a program, at any depth. -/
def stmts (p : Program) : List Stmt :=
  p.bodies.flatMap Block.stmts

/-- Every identifier that a program spells. -/
def identifiers (p : Program) : List String :=
  p.declarations.flatMap Decl.identifiers ++ p.main.identifiers

/-- Every expression of every body is settled. -/
def settled (p : Program) : Bool :=
  p.bodies.all (fun b => b.exprs.all Expr.settled)

end Program

/-! ## Taking occurrences apart -/

theorem exprs_block (b : Block) : b.exprs = exprsOf b.statements := by
  cases b
  rfl

theorem targets_block (b : Block) : b.targets = targetsOf b.statements := by
  cases b
  rfl

theorem decl_of_mem_routines {p : Program} {r : Routine} (h : r ∈ p.routines) :
    .routine r ∈ p.declarations := by
  obtain ⟨d, hd, hdr⟩ := List.mem_filterMap.mp h
  cases d with
  | vars decl => cases hdr
  | routine r' => cases hdr; exact hd

/-- The parameters of a routine and the names in its body are names of the program. -/
theorem identifiers_of_mem_routines {p : Program} {r : Routine} (h : r ∈ p.routines) :
    ∀ x ∈ r.paramNames ++ r.body.identifiers, x ∈ p.identifiers := by
  intro x hx
  refine List.mem_append_left _ (List.mem_flatMap.mpr ⟨_, decl_of_mem_routines h, ?_⟩)
  exact List.mem_cons_of_mem _ hx

/-- The names in a body are names of the program. -/
theorem identifiers_of_mem_bodies {p : Program} {b : Block} (h : b ∈ p.bodies) :
    ∀ x ∈ b.identifiers, x ∈ p.identifiers := by
  intro x hx
  rcases List.mem_append.mp h with hb | hm
  · obtain ⟨r, hr, rfl⟩ := List.mem_map.mp hb
    exact identifiers_of_mem_routines hr x (List.mem_append_right _ hx)
  · rw [List.mem_singleton] at hm
    subst hm
    exact List.mem_append_right _ hx

/-- In a settled program the expressions of every body are settled. -/
theorem exprs_settled_of_mem_bodies {p : Program} (hp : p.settled = true) {b : Block}
    (h : b ∈ p.bodies) : ∀ e ∈ b.exprs, e.settled = true := by
  intro e he
  have hb := List.all_eq_true.mp hp b h
  exact List.all_eq_true.mp hb e he

theorem body_mem_bodies {p : Program} {r : Routine} (h : r ∈ p.routines) : r.body ∈ p.bodies :=
  List.mem_append_left _ (List.mem_map.mpr ⟨r, h, rfl⟩)

theorem main_mem_bodies (p : Program) : p.main ∈ p.bodies :=
  List.mem_append_right _ (List.mem_singleton.mpr rfl)

/-! ## Expressions at any depth -/

/-- What stands in some of the expressions is one of them or nested in one. -/
theorem mem_nestedOf {es : List Expr} {e' : Expr} :
    e' ∈ nestedOf es ↔ ∃ e ∈ es, e' ∈ e :: e.nested := by
  induction es with
  | nil => simp [nestedOf]
  | cons e es ih => simp only [nestedOf, List.mem_append, ih, List.mem_cons, exists_eq_or_imp]

mutual

/-- A nested expression has no names that the whole does not have. -/
theorem identifiers_nested : ∀ (e : Expr), ∀ e' ∈ e.nested, e'.identifiers ⊆ e.identifiers
  | .int _ _ | .bool _ _ | .var _ _ => fun e' h => absurd h List.not_mem_nil
  | .paren inner _ =>
      List.forall_mem_cons.mpr ⟨List.Subset.refl _, identifiers_nested inner⟩
  | .not operand _ =>
      List.forall_mem_cons.mpr ⟨List.Subset.refl _, identifiers_nested operand⟩
  | .binary _ left right _ => by
      have hl : left.identifiers ⊆ left.identifiers ++ right.identifiers :=
        List.subset_append_left _ _
      have hr : right.identifiers ⊆ left.identifiers ++ right.identifiers :=
        List.subset_append_right _ _
      simp only [Expr.nested, Expr.identifiers, List.forall_mem_append, List.forall_mem_cons]
      exact ⟨⟨hl, fun e' h => List.Subset.trans (identifiers_nested left e' h) hl⟩, hr,
        fun e' h => List.Subset.trans (identifiers_nested right e' h) hr⟩
  | .call callee args _ => fun e' h =>
      List.Subset.trans (identifiers_nestedOf args e' h) (List.subset_cons_self _ _)

theorem identifiers_nestedOf : ∀ (es : List Expr), ∀ e' ∈ nestedOf es,
    e'.identifiers ⊆ identifiersOf es
  | [] => fun e' h => absurd h List.not_mem_nil
  | e :: es => by
      have he : e.identifiers ⊆ e.identifiers ++ identifiersOf es := List.subset_append_left _ _
      have hes : identifiersOf es ⊆ e.identifiers ++ identifiersOf es :=
        List.subset_append_right _ _
      simp only [nestedOf, identifiersOf, List.forall_mem_append, List.forall_mem_cons]
      exact ⟨⟨he, fun e' h => List.Subset.trans (identifiers_nested e e' h) he⟩,
        fun e' h => List.Subset.trans (identifiers_nestedOf es e' h) hes⟩

end

/-- The names of an expression of a program are names of the program. -/
theorem identifiers_of_mem_exprs {p : Program} {e : Expr} (h : e ∈ p.exprs) :
    e.identifiers ⊆ p.identifiers := by
  obtain ⟨top, htop, hin⟩ := mem_nestedOf.mp h
  obtain ⟨b, hb, htop⟩ := List.mem_flatMap.mp htop
  have hsub : e.identifiers ⊆ top.identifiers := by
    rcases List.mem_cons.mp hin with rfl | hin
    · exact List.Subset.refl _
    · exact identifiers_nested top e hin
  intro x hx
  refine identifiers_of_mem_bodies hb x (List.mem_append_right _ ?_)
  exact List.mem_flatMap.mpr ⟨top, htop, hsub hx⟩

theorem mem_identifiers_of_name? {e : Expr} {x : String} (h : e.name? = some x) :
    x ∈ e.identifiers := by
  fun_induction Expr.name? e with
  | case1 => cases h; exact List.mem_cons_self
  | case2 inner _ ih => exact ih h
  | case3 => cases h

end TinyPascal
