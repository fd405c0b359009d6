import TinyPascal.Proofs.Tree.Occurrences
import TinyPascal.Scope.Symbol

/-!
# `Proofs.Typing.Rules` — the rules for names and types

The rules without an order in which they are checked: there is no table that changes, and no first
violation. A judgement is made in an environment that says what each name stands for.

## Contents
- **Environments.** `Names`, `Names.Holds`.
- **Expressions.** `HasType`, and `HaveTypes` for the arguments of a call.
- **Statements.** `StmtOk` and `StmtsOk`, inside a routine or the main block, and inside a loop or not.
- **Programs.** `Program.WellTyped`. Routines see all global names of the program, in whatever order they
  are declared, and parameters hide them.
-/

namespace TinyPascal

/-! ## Environments -/

/-- What names stand for. -/
abbrev Names := String → Option Role

/-- The name is a variable or a parameter of the given type. -/
def Names.Holds (Γ : Names) (x : String) (ty : Ty) : Prop :=
  Γ x = some (.var ty) ∨ Γ x = some (.param ty)

/-! ## Expressions -/

/-- Every operator is of one kind only: arithmetic, logical or relational. -/
theorem BinOp.kinds (op : BinOp) :
    (op ∈ [BinOp.add, .sub, .mul, .div] ↔ op.isArithmetic = true) ∧
      (op ∈ [BinOp.and, .or] ↔ op.isLogical = true) ∧
      (op ∈ [BinOp.eq, .neq, .lt, .le, .gt, .ge] ↔ op.isArithmetic = false ∧ op.isLogical = false) ∧
      (op.isArithmetic && op.isLogical) = false := by
  cases op <;> decide

mutual

/-- The expression has the type. -/
inductive HasType (Γ : Names) : Expr → Ty → Prop where
  | int {n span} : HasType Γ (.int n span) .integer
  | bool {b span} : HasType Γ (.bool b span) .boolean
  | var {x span ty} : Γ.Holds x ty → HasType Γ (.var x span) ty
  | paren {e span ty} : HasType Γ e ty → HasType Γ (.paren e span) ty
  | not {e span} : HasType Γ e .boolean → HasType Γ (.not e span) .boolean
  | arithmetic {op left right span} :
      op ∈ [BinOp.add, .sub, .mul, .div] → HasType Γ left .integer → HasType Γ right .integer →
      HasType Γ (.binary op left right span) .integer
  | logical {op left right span} :
      op ∈ [BinOp.and, .or] → HasType Γ left .boolean → HasType Γ right .boolean →
      HasType Γ (.binary op left right span) .boolean
  | relational {op left right span ty} :
      op ∈ [BinOp.eq, .neq, .lt, .le, .gt, .ge] → HasType Γ left ty → HasType Γ right ty →
      HasType Γ (.binary op left right span) .boolean
  | call {callee args span params ty} :
      Γ callee.name = some (.routine ⟨params, some ty⟩) → HaveTypes Γ args params →
      HasType Γ (.call callee args span) ty

/-- As many expressions as types, and each has the type in its position. -/
inductive HaveTypes (Γ : Names) : List Expr → List Ty → Prop where
  | nil : HaveTypes Γ [] []
  | cons {e es ty tys} : HasType Γ e ty → HaveTypes Γ es tys → HaveTypes Γ (e :: es) (ty :: tys)

end

theorem HaveTypes.length_eq {Γ : Names} {es : List Expr} {tys : List Ty} :
    HaveTypes Γ es tys → tys.length = es.length
  | .nil => rfl
  | .cons _ h => congrArg Nat.succ h.length_eq

/-! ## Statements -/

mutual

/-- The statement keeps the rules. `routine` is the result type of the routine around it: `none` in the
    main block, `some none` in a procedure. -/
inductive StmtOk (Γ : Names) (routine : Option (Option Ty)) : Bool → Stmt → Prop where
  | assign {inLoop target value span ty} :
      Γ.Holds target.name ty → HasType Γ value ty →
      StmtOk Γ routine inLoop (.assign target value span)
  | call {inLoop callee args span params result} :
      Γ callee.name = some (.routine ⟨params, result⟩) → HaveTypes Γ args params →
      StmtOk Γ routine inLoop (.call callee args span)
  | returnNone {inLoop span} :
      routine = some none → StmtOk Γ routine inLoop (.return none span)
  | returnSome {inLoop value span ty} :
      routine = some (some ty) → HasType Γ value ty →
      StmtOk Γ routine inLoop (.return (some value) span)
  | ifThen {inLoop cond yes span} :
      HasType Γ cond .boolean → StmtsOk Γ routine inLoop yes.statements →
      StmtOk Γ routine inLoop (.ifThen cond yes span)
  | ifElse {inLoop cond yes no span} :
      HasType Γ cond .boolean → StmtsOk Γ routine inLoop yes.statements →
      StmtsOk Γ routine inLoop no.statements → StmtOk Γ routine inLoop (.ifElse cond yes no span)
  | while {inLoop cond body span} :
      HasType Γ cond .boolean → StmtsOk Γ routine true body.statements →
      StmtOk Γ routine inLoop (.while cond body span)
  | break {span} : StmtOk Γ routine true (.break span)
  | continue {span} : StmtOk Γ routine true (.continue span)
  | write {inLoop args span} :
      (∀ e ∈ args, ∃ ty, HasType Γ e ty) → StmtOk Γ routine inLoop (.write args span)

/-- All statements keep the rules. -/
inductive StmtsOk (Γ : Names) (routine : Option (Option Ty)) : Bool → List Stmt → Prop where
  | nil {inLoop} : StmtsOk Γ routine inLoop []
  | cons {inLoop s more} :
      StmtOk Γ routine inLoop s → StmtsOk Γ routine inLoop more →
      StmtsOk Γ routine inLoop (s :: more)

end

/-! ## Reading the rules backwards -/

section Inversion

variable {Γ : Names} {routine : Option (Option Ty)} {inLoop : Bool} {cond value : Expr}
  {yes no body : Block} {span : Span}

/-- An assignment keeps the rules if its target is a variable or parameter of the type of its value. -/
theorem stmtOk_assign {target : Ident} :
    StmtOk Γ routine inLoop (.assign target value span) ↔
      ∃ ty, Γ.Holds target.name ty ∧ HasType Γ value ty := by
  constructor
  · intro h
    cases h with
    | assign htarget hvalue => exact ⟨_, htarget, hvalue⟩
  · rintro ⟨ty, htarget, hvalue⟩
    exact .assign htarget hvalue

/-- A call statement keeps the rules if its arguments have the types of the parameters; it needs no
    result. -/
theorem stmtOk_call {callee : Ident} {args : List Expr} :
    StmtOk Γ routine inLoop (.call callee args span) ↔
      ∃ params result, Γ callee.name = some (.routine ⟨params, result⟩) ∧ HaveTypes Γ args params := by
  constructor
  · intro h
    cases h with
    | call hrole hargs => exact ⟨_, _, hrole, hargs⟩
  · rintro ⟨params, result, hrole, hargs⟩
    exact .call hrole hargs

theorem stmtOk_return_none : StmtOk Γ routine inLoop (.return none span) ↔ routine = some none := by
  constructor
  · intro h
    cases h with
    | returnNone h => exact h
  · exact .returnNone

/-- A `return` with a value belongs into a function with a result of its type. -/
theorem stmtOk_return_some :
    StmtOk Γ routine inLoop (.return (some value) span) ↔
      ∃ ty, routine = some (some ty) ∧ HasType Γ value ty := by
  constructor
  · intro h
    cases h with
    | returnSome h hvalue => exact ⟨_, h, hvalue⟩
  · rintro ⟨ty, h, hvalue⟩
    exact .returnSome h hvalue

/-- An `if` keeps the rules with its condition and its block. -/
theorem stmtOk_ifThen :
    StmtOk Γ routine inLoop (.ifThen cond yes span) ↔
      HasType Γ cond .boolean ∧ StmtsOk Γ routine inLoop yes.statements := by
  constructor
  · intro h
    cases h with
    | ifThen hcond hyes => exact ⟨hcond, hyes⟩
  · rintro ⟨hcond, hyes⟩
    exact .ifThen hcond hyes

/-- An `if` with `else` keeps the rules with its condition and both blocks. -/
theorem stmtOk_ifElse :
    StmtOk Γ routine inLoop (.ifElse cond yes no span) ↔
      HasType Γ cond .boolean ∧ StmtsOk Γ routine inLoop yes.statements ∧
        StmtsOk Γ routine inLoop no.statements := by
  constructor
  · intro h
    cases h with
    | ifElse hcond hyes hno => exact ⟨hcond, hyes, hno⟩
  · rintro ⟨hcond, hyes, hno⟩
    exact .ifElse hcond hyes hno

/-- The body of a loop keeps the rules inside a loop. -/
theorem stmtOk_while :
    StmtOk Γ routine inLoop (.while cond body span) ↔
      HasType Γ cond .boolean ∧ StmtsOk Γ routine true body.statements := by
  constructor
  · intro h
    cases h with
    | «while» hcond hbody => exact ⟨hcond, hbody⟩
  · rintro ⟨hcond, hbody⟩
    exact .while hcond hbody

theorem stmtOk_break : StmtOk Γ routine inLoop (.break span) ↔ inLoop = true := by
  constructor
  · intro h
    cases h
    rfl
  · rintro rfl
    exact .break

theorem stmtOk_continue : StmtOk Γ routine inLoop (.continue span) ↔ inLoop = true := by
  constructor
  · intro h
    cases h
    rfl
  · rintro rfl
    exact .continue

theorem stmtOk_write {args : List Expr} :
    StmtOk Γ routine inLoop (.write args span) ↔ ∀ e ∈ args, ∃ ty, HasType Γ e ty := by
  constructor
  · intro h
    cases h with
    | write h => exact h
  · exact .write

/-- Statements in a row keep the rules if each of them does. -/
theorem stmtsOk_cons {s : Stmt} {more : List Stmt} :
    StmtsOk Γ routine inLoop (s :: more) ↔
      StmtOk Γ routine inLoop s ∧ StmtsOk Γ routine inLoop more := by
  constructor
  · intro h
    cases h with
    | cons hs hmore => exact ⟨hs, hmore⟩
  · rintro ⟨hs, hmore⟩
    exact .cons hs hmore

end Inversion

/-! ## Programs -/

/-- The global names that a declaration declares, and what they stand for. -/
def Decl.roles : Decl → List (String × Role)
  | .vars decl => decl.names.map (fun name => (name.name, .var decl.ty))
  | .routine r => [(r.name.name, .routine r.signature)]

namespace Routine

/-- The parameters of a routine. -/
def roles (r : Routine) : List (String × Role) :=
  (Param.flatten r.params).map (fun (name, ty) => (name.name, .param ty))

/-- The environment of the body of a routine: parameters hide the global names. -/
def names (r : Routine) (Γ : Names) : Names :=
  fun x => (r.roles.lookup x).or (Γ x)

/-- The rules of a routine. -/
structure WellTyped (Γ : Names) (r : Routine) : Prop where
  params : (r.roles.map Prod.fst).Nodup
  body : StmtsOk (r.names Γ) (some r.result) false r.body.statements

end Routine

namespace Program

/-- The global names of a program. -/
def roles (p : Program) : List (String × Role) :=
  p.declarations.flatMap Decl.roles

/-- The environment of the main block. -/
def names (p : Program) : Names :=
  fun x => p.roles.lookup x

/-- **The rules of a program.** -/
structure WellTyped (p : Program) : Prop where
  globals : (p.roles.map Prod.fst).Nodup
  routines : ∀ r ∈ p.routines, r.WellTyped p.names
  main : StmtsOk p.names none false p.main.statements

end Program

end TinyPascal
