import TinyPascal.Proofs.Outcome
import TinyPascal.Proofs.Scope.Mapped
import TinyPascal.Proofs.Tree.Core
import TinyPascal.Typing.Program

/-!
# `Proofs.Typing.Core` — trees are checked as their cores are

The places of a tree show in two results of checking: in the table, where each name was declared, and in
a violation, where it was met. Parentheses show in neither. So **checking the core of a tree gives the
same table and the same violation, without their places**.

A check of a tree is compared with the check of its core, which starts from the table without places. The
relation between the two is kept by every step, and one induction carries it through the tree.

## Contents
- **Without places.** `SemanticError.bare`, `Table.bare`.
- **Expressions.** `Unplaced x y`: the results agree, up to places. `type_core`, `checkArgs_core`.
- **Statements.** `Check.Unplaced x y`: the checks do the same, up to places. `check_core_stmt`.
- **Programs.** `check_core`.
-/

namespace TinyPascal

/-! ## Without places -/

/-- A violation without its place. -/
def SemanticError.bare (e : SemanticError) : SemanticError :=
  ⟨e.violation, {}⟩

/-- A symbol without the place of its declaration. -/
def Symbol.bare (s : Symbol) : Symbol :=
  { s with span := {} }

/-- A table without places. -/
def Table.bare (t : Table) : Table :=
  t.mapSymbols Symbol.bare

/-! ## Expressions -/

/-- The second result is the first, without the place of a violation. -/
def Unplaced {α : Type} (x y : Except SemanticError α) : Prop :=
  y = x.mapError SemanticError.bare

namespace Unplaced

variable {α β : Type} {x y : Except SemanticError α} {t : Table}

theorem ok (a : α) : Unplaced (.ok a) (.ok a) := rfl

theorem error (violation : Violation) (span : Span) :
    Unplaced (.error ⟨violation, span⟩ : Except SemanticError α) (.error ⟨violation, {}⟩) := rfl

theorem bind {f f' : α → Except SemanticError β} (hx : Unplaced x y) (hf : ∀ a, Unplaced (f a) (f' a)) :
    Unplaced (x >>= f) (y >>= f') := by
  cases hx
  cases x with
  | ok a => exact hf a
  | error e => rfl

/-- Whether a type is the expected one does not depend on where it was found. -/
theorem expectType (context : String) (expected found : Ty) (span : Span) :
    Unplaced (TinyPascal.expectType context expected found span)
      (TinyPascal.expectType context expected found {}) := by
  unfold TinyPascal.expectType
  by_cases heq : expected = found
  · rw [if_pos heq, if_pos heq]
    exact .ok ()
  · rw [if_neg heq, if_neg heq]
    exact .error _ _

/-- A name stands for the same symbol, without its place, in the table without places. -/
theorem resolve (name : String) (span : Span) {h : Symbol → Except SemanticError α}
    {h' : Symbol → Except SemanticError α} (hh : ∀ symbol, Unplaced (h symbol) (h' symbol.bare)) :
    Unplaced (t.resolve name span >>= h) (t.bare.resolve name {} >>= h') := by
  unfold Table.resolve Table.bare
  rw [Table.lookup?_mapSymbols]
  cases t.lookup? name with
  | some symbol => exact hh symbol
  | none => rfl

theorem storageType (name : String) (span : Span) :
    Unplaced (t.storageType name span) (t.bare.storageType name {}) := by
  refine resolve name span (fun symbol => ?_)
  have hstorage : symbol.bare.storage? = symbol.storage? := rfl
  simp only [hstorage]
  cases symbol.storage? with
  | some ty => exact .ok ty
  | none => exact .error _ _

/-- The signature of a routine, and whether it takes so many arguments. -/
theorem signatureFor (callee : Ident) (count : Nat) (span : Span) :
    Unplaced (t.signatureFor callee count span) (t.bare.signatureFor callee.bare count {}) := by
  refine resolve callee.name callee.span (fun symbol => ?_)
  have hsignature : symbol.bare.signature? = symbol.signature? := rfl
  simp only [hsignature]
  cases symbol.signature? with
  | none => exact .error _ _
  | some signature =>
      show Unplaced (if signature.params.length = count then _ else _) (if _ then _ else _)
      by_cases hcount : signature.params.length = count
      · rw [if_pos hcount, if_pos hcount]
        exact .ok signature
      · rw [if_neg hcount, if_neg hcount]
        exact .error _ _

/-- The types of the operands decide about an operator; their places only show in a violation. -/
theorem resultType (op : BinOp) (left right : Ty) (leftSpan rightSpan : Span) :
    Unplaced (op.resultType left right leftSpan rightSpan) (op.resultType left right {} {}) := by
  have hboth : ∀ expected result : Ty, Unplaced
      (TinyPascal.expectType s!"operand of '{op.symbol}'" expected left leftSpan >>= fun _ =>
        TinyPascal.expectType s!"operand of '{op.symbol}'" expected right rightSpan >>= fun _ =>
          .ok result)
      (TinyPascal.expectType s!"operand of '{op.symbol}'" expected left {} >>= fun _ =>
        TinyPascal.expectType s!"operand of '{op.symbol}'" expected right {} >>= fun _ =>
          .ok result) :=
    fun expected result => (expectType _ _ _ _).bind fun _ => (expectType _ _ _ _).bind fun _ => .ok _
  unfold BinOp.resultType
  by_cases harith : op.isArithmetic = true
  · rw [if_pos harith, if_pos harith]
    exact hboth .integer .integer
  · rw [if_neg harith, if_neg harith]
    by_cases hlogic : op.isLogical = true
    · rw [if_pos hlogic, if_pos hlogic]
      exact hboth .boolean .boolean
    · rw [if_neg hlogic, if_neg hlogic]
      exact (expectType _ _ _ _).bind fun _ => .ok _

end Unplaced

mutual

/-- **Types.** A parenthesised expression has the type of what is inside; its own place may only show in
    the place of a violation. -/
theorem type_core : ∀ (e : Expr) (t : Table), Unplaced (e.type t) (e.core.type t.bare)
  | .int _ _, _ | .bool _ _, _ => .ok _
  | .var name span, t => .storageType name span
  | .paren inner _, t => type_core inner t
  | .not operand _, t => by
      have hexpect := fun ty =>
        Unplaced.expectType "operand of 'not'" .boolean ty operand.span
      rw [Expr.core, Expr.type, Expr.type, Expr.span_core]
      exact (type_core operand t).bind fun ty => (hexpect ty).bind fun _ => .ok _
  | .binary op left right _, t => by
      rw [Expr.core, Expr.type, Expr.type, Expr.span_core, Expr.span_core]
      exact (type_core left t).bind fun _ => (type_core right t).bind fun _ =>
        .resultType _ _ _ _ _
  | .call callee args span, t => by
      rw [Expr.core, Expr.type, Expr.type, length_coreArgs]
      refine (Unplaced.signatureFor callee args.length span).bind fun signature => ?_
      refine (checkArgs_core args t callee.name 1 signature.params).bind fun _ => ?_
      cases signature.result with
      | some ty => exact .ok ty
      | none => exact .error _ _

/-- Arguments are numbered alike in a call and in its core. -/
theorem checkArgs_core : ∀ (es : List Expr) (t : Table) (callee : String) (number : Nat)
    (params : List Ty),
    Unplaced (checkArgs t callee number params es) (checkArgs t.bare callee number params (coreArgs es))
  | [], _, _, _, [] | [], _, _, _, _ :: _ | _ :: _, _, _, _, [] => .ok _
  | e :: es, t, callee, number, expected :: params => by
      rw [coreArgs, checkArgs, checkArgs, Expr.span_core]
      exact (type_core e t).bind fun _ => (Unplaced.expectType _ _ _ _).bind fun _ =>
        checkArgs_core es t callee (number + 1) params

end

section Expressions

variable {t : Table}

/-- The result of a call is that of its core. -/
theorem callResult_core (callee : Ident) (args : List Expr) (span : Span) :
    Unplaced (callResult t callee args span) (callResult t.bare callee.bare (coreArgs args) {}) := by
  unfold callResult
  rw [length_coreArgs]
  exact (Unplaced.signatureFor callee args.length span).bind fun signature =>
    (checkArgs_core args t callee.name 1 signature.params).bind fun _ => .ok _

theorem checkValues_core (es : List Expr) :
    Unplaced (checkValues t es) (checkValues t.bare (coreArgs es)) := by
  induction es with
  | nil => exact .ok ()
  | cons e es ih =>
      have hvalue : Unplaced (discard (e.type t)) (discard (e.core.type t.bare)) :=
        (type_core e t).bind fun _ => .ok ()
      exact hvalue.bind fun _ => ih

/-- A condition may stand in parentheses. -/
theorem checkCondition_core (context : String) (cond : Expr) :
    Unplaced (checkCondition context cond t) (checkCondition context cond.core t.bare) := by
  unfold checkCondition
  rw [Expr.span_core]
  exact (type_core cond t).bind fun _ => .expectType _ _ _ _

/-- The target of an assignment is found by its name alone. -/
theorem checkAssign_core (target : Ident) (value : Expr) :
    Unplaced (checkAssign target value t) (checkAssign target.bare value.core t.bare) := by
  unfold checkAssign
  rw [Expr.span_core]
  exact (Unplaced.storageType target.name target.span).bind fun _ =>
    (type_core value t).bind fun _ => .expectType _ _ _ _

/-- A `return` is checked against the routine around it, which has no place. -/
theorem checkReturn_core (ctx : Context) (value : Option Expr) (span : Span) :
    Unplaced (checkReturn ctx value span t) (checkReturn ctx (value.map Expr.core) {} t.bare) := by
  unfold checkReturn
  rcases ctx.routine with _ | ⟨name, _ | expected⟩
  · exact .error _ _
  · cases value with
    | none => exact .ok ()
    | some e =>
        show Unplaced _ (.error ⟨_, e.core.span⟩)
        rw [Expr.span_core]
        exact .error _ _
  · cases value with
    | none => exact .error _ _
    | some e =>
        show Unplaced _ (e.core.type t.bare >>= fun found => expectType _ expected found e.core.span)
        rw [Expr.span_core]
        exact (type_core e t).bind fun _ => .expectType _ _ _ _

/-- Whether a jump is inside a loop is a matter of the context alone. -/
theorem checkInLoop_core (ctx : Context) (keyword : String) (span : Span) :
    Unplaced (checkInLoop ctx keyword span) (checkInLoop ctx keyword {}) := by
  unfold checkInLoop
  by_cases hloops : ctx.loops = 0
  · rw [if_pos hloops, if_pos hloops]
    exact .error _ _
  · rw [if_neg hloops, if_neg hloops]
    exact .ok ()

end Expressions

/-! ## Statements -/

/-- Without places in the table, the second check does what the first does, without the places. -/
abbrev Check.Unplaced {α : Type} (x y : EStateM SemanticError Table α) : Prop :=
  Simulates SemanticError.bare Table.bare x y

namespace Check.Unplaced

/-- What only looks at the table leaves it as it is, with or without places. -/
theorem ofTable {α : Type} {f f' : Table → Except SemanticError α}
    (h : ∀ t, TinyPascal.Unplaced (f t) (f' t.bare)) : Check.Unplaced (Check.ofTable f) (Check.ofTable f') := by
  intro t
  unfold Check.ofTable
  rw [h t]
  cases f t <;> rfl

theorem inScope {x y : Check} (h : Check.Unplaced x y) :
    Check.Unplaced (Check.inScope x) (Check.inScope y) := by
  intro t
  unfold Check.inScope
  have henter : t.bare.enter = t.enter.bare := Table.mapSymbols_enter t
  rw [henter, h t.enter]
  cases x t.enter with
  | ok u t₁ => exact congrArg (EStateM.Result.ok ()) (Table.mapSymbols_exit t₁)
  | error e t₁ => exact congrArg (EStateM.Result.error e.bare) (Table.mapSymbols_exit t₁)

/-- A change of the table that commutes with leaving places out. -/
theorem change (span : Span) {f f' : Table → Except SymbolError Table}
    (h : ∀ t, f' t.bare = (f t).map Table.bare) :
    Check.Unplaced (Check.change span f) (Check.change {} f') := by
  intro t
  unfold Check.change
  rw [h t]
  cases f t <;> rfl

theorem declare (name : Ident) (symbol : Symbol) :
    Check.Unplaced (Check.declare name symbol) (Check.declare name.bare symbol.bare) :=
  change name.span (fun t => t.declare_mapSymbols name.name symbol)

theorem markAssigned (name : Ident) :
    Check.Unplaced (Check.markAssigned name) (Check.markAssigned name.bare) :=
  change name.span (fun t => Table.update_mapSymbols (f := Symbol.bare) (fun _ => rfl) t name.name)

end Check.Unplaced

mutual

/-- **Statements are checked as their cores are.** -/
theorem check_core_stmt : ∀ (s : Stmt) (ctx : Context), Check.Unplaced (s.check ctx) (s.core.check ctx)
  | .assign target value _, ctx => by
      rw [Stmt.core, Stmt.check, Stmt.check]
      exact (Check.Unplaced.ofTable fun t => checkAssign_core target value).bind fun _ =>
        Check.Unplaced.markAssigned target
  | .call callee args span, ctx => by
      rw [Stmt.core, Stmt.check, Stmt.check]
      exact (Check.Unplaced.ofTable fun t => callResult_core callee args span).bind fun _ => .pure ()
  | .return value span, ctx => by
      rw [Stmt.core, Stmt.check, Stmt.check]
      exact Check.Unplaced.ofTable fun t => checkReturn_core ctx value span
  | .ifThen cond yes _, ctx => by
      rw [Stmt.core, Stmt.check, Stmt.check]
      exact (Check.Unplaced.ofTable fun t => checkCondition_core _ cond).bind fun _ =>
        check_core_block yes ctx
  | .ifElse cond yes no _, ctx => by
      rw [Stmt.core, Stmt.check, Stmt.check]
      exact (Check.Unplaced.ofTable fun t => checkCondition_core _ cond).bind fun _ =>
        (check_core_block yes ctx).bind fun _ => check_core_block no ctx
  | .while cond body _, ctx => by
      rw [Stmt.core, Stmt.check, Stmt.check]
      exact (Check.Unplaced.ofTable fun t => checkCondition_core _ cond).bind fun _ =>
        check_core_block body _
  | .break span, ctx | .continue span, ctx => by
      rw [Stmt.core, Stmt.check, Stmt.check]
      exact Check.Unplaced.ofTable fun t => checkInLoop_core ctx _ span
  | .write args _, ctx => by
      rw [Stmt.core, Stmt.check, Stmt.check]
      exact Check.Unplaced.ofTable fun t => checkValues_core args

/-- The scope of a block holds the same names without their places. -/
theorem check_core_block : ∀ (b : Block) (ctx : Context),
    Check.Unplaced (b.check ctx) (b.core.check ctx)
  | ⟨statements, _⟩, ctx => (checkAll_core statements ctx).inScope

/-- Statements in a row change both tables alike. -/
theorem checkAll_core : ∀ (ss : List Stmt) (ctx : Context),
    Check.Unplaced (checkAll ctx ss) (checkAll ctx (coreStmts ss))
  | [], _ => .pure ()
  | s :: more, ctx => by
      rw [coreStmts, checkAll, checkAll]
      exact (check_core_stmt s ctx).bind fun _ => checkAll_core more ctx

end

/-! ## Programs -/

theorem declareVars_core (ty : Ty) (names : List Ident) :
    Check.Unplaced (declareVars ty names) (declareVars ty (names.map Ident.bare)) := by
  induction names with
  | nil => exact .pure ()
  | cons name names ih => exact (Check.Unplaced.declare name (.var ty name.span)).bind fun _ => ih

/-- Parameters are declared with their types, which have no places. -/
theorem declareParams_core (params : List (Ident × Ty)) :
    Check.Unplaced (declareParams params) (declareParams (params.map (fun p => (p.1.bare, p.2)))) := by
  induction params with
  | nil => exact .pure ()
  | cons param params ih =>
      obtain ⟨name, ty⟩ := param
      exact (Check.Unplaced.declare name (.param ty name.span)).bind fun _ => ih

/-- A routine has the signature of its core. -/
theorem signature_core (r : Routine) : r.core.signature = r.signature := by
  show Signature.mk ((Param.flatten (r.params.map Param.bare)).map Prod.snd) r.result = _
  rw [flatten_bare, List.map_map]
  rfl

/-- The global names of a core are those of the program, without places. -/
theorem declareGlobals_core (ds : List Decl) :
    Check.Unplaced (declareGlobals ds) (declareGlobals (ds.map Decl.core)) := by
  induction ds with
  | nil => exact .pure ()
  | cons d ds ih =>
      cases d with
      | vars decl => exact (declareVars_core decl.ty decl.names).bind fun _ => ih
      | routine r =>
          rw [List.map_cons, Decl.core, declareGlobals, declareGlobals, signature_core]
          exact (Check.Unplaced.declare r.name (.routine r.signature r.name.span)).bind fun _ => ih

theorem check_core_routine (r : Routine) : Check.Unplaced r.check r.core.check := by
  unfold Routine.check
  show Check.Unplaced _ (Check.inScope do
    declareParams (Param.flatten (r.params.map Param.bare))
    checkAll { routine := some (r.name.name, r.result) } r.body.core.statements)
  rw [flatten_bare, Block.statements_core]
  exact Check.Unplaced.inScope ((declareParams_core _).bind fun _ => checkAll_core _ _)

theorem checkRoutines_core (ds : List Decl) :
    Check.Unplaced (checkRoutines ds) (checkRoutines (ds.map Decl.core)) := by
  induction ds with
  | nil => exact .pure ()
  | cons d ds ih =>
      cases d with
      | vars decl => exact ih
      | routine r => exact (check_core_routine r).bind fun _ => ih

/-- **A program is checked as its core is**: the tables and the violations are the same, but for the
    places in them. -/
theorem check_core (p : Program) :
    p.core.check = (p.check.map Table.bare).mapError SemanticError.bare := by
  have hchecks : Check.Unplaced p.checks p.core.checks :=
    (declareGlobals_core p.declarations).bind fun _ =>
      (checkRoutines_core p.declarations).bind fun _ => check_core_block p.main {}
  have hrun : p.core.checks {} = seenThrough SemanticError.bare Table.bare (p.checks {}) := hchecks {}
  unfold Program.check
  rw [hrun]
  cases p.checks {} <;> rfl

end TinyPascal
