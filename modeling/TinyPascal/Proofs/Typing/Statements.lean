import TinyPascal.Proofs.Typing.Checks
import TinyPascal.Proofs.Typing.Expressions

/-!
# `Proofs.Typing.Statements` — a statement is accepted if it keeps the rules

Checking walks over a tree with a table that changes on the way. It opens scopes and closes them again,
and sets marks; what the names stand for stays as it was. So each check can be compared with its rule by
itself.

## Contents
- **What checks leave alone.** `Check.Frame`, `within_check`: what any check does to a table, one statement
  at a time; `within_checks` for programs; `Check.Keeps`, `keeps_check`.
- **Statements.** `stmt_accepted_iff`, `block_accepted_iff`, `all_accepted_iff`.
-/

namespace TinyPascal

/-! ## What checks leave alone -/

/-- A relation between a table and a later one that covers all that checks do to tables: one thing after
    the other, something in a scope that is closed again, and an assignment. -/
structure Check.Frame (R : Table → Table → Prop) : Prop where
  refl : ∀ t, R t t
  trans : ∀ {t t' t'' : Table}, R t t' → R t' t'' → R t t''
  inScope : ∀ {t t' : Table}, R t.enter t' → R t t'.exit
  assign : ∀ {target : Ident} {value : Expr} {t t' : Table}, checkAssign target value t = .ok () →
    t.update target.name (some true) = .ok t' → R t t'

/-- A check that takes every table to one that is related to it, also where it fails. -/
def Check.Within {α : Type} (R : Table → Table → Prop) (check : EStateM SemanticError Table α) : Prop :=
  ∀ t, R t (EStateM.state (check t))

theorem Check.state_ofTable {α : Type} (f : Table → Except SemanticError α) (t : Table) :
    EStateM.state (Check.ofTable f t) = t := by
  unfold Check.ofTable
  cases f t <;> rfl

namespace Check.Within

variable {R : Table → Table → Prop}

theorem pure (hR : Frame R) : Within R (Pure.pure () : Check) :=
  fun t => hR.refl t

theorem ofTable (hR : Frame R) {α : Type} (f : Table → Except SemanticError α) :
    Within R (Check.ofTable f) := by
  intro t
  rw [state_ofTable]
  exact hR.refl t

/-- Two checks in a row keep a frame if each of them does. -/
theorem bind (hR : Frame R) {α β : Type} {c : EStateM SemanticError Table α}
    {f : α → EStateM SemanticError Table β} (hc : Within R c) (hf : ∀ a, Within R (f a)) :
    Within R (c >>= f) := by
  intro t
  exact EStateM.state_bind (P := fun t' : Table => R t t') (hc t) (fun a t' ht' => hR.trans ht' (hf a t'))

/-- The scope that was opened is closed again. -/
theorem inScope (hR : Frame R) {c : Check} (hc : Within R c) : Within R (Check.inScope c) := by
  intro t
  have hstate : EStateM.state (Check.inScope c t) = (EStateM.state (c t.enter)).exit := by
    unfold Check.inScope
    cases c t.enter <;> rfl
  rw [hstate]
  exact hR.inScope (hc t.enter)

/-- A name is marked after it was found to hold a value of the right type. -/
theorem assign (hR : Frame R) (target : Ident) (value : Expr) :
    Within R (do
      Check.ofTable (checkAssign target value)
      Check.markAssigned target) := by
  intro t
  show R t (EStateM.state (EStateM.bind (Check.ofTable (checkAssign target value))
    (fun _ => Check.markAssigned target) t))
  unfold EStateM.bind
  cases hassign : Check.ofTable (checkAssign target value) t with
  | error e t₁ =>
      have hstate := state_ofTable (checkAssign target value) t
      rw [hassign] at hstate
      exact hstate ▸ hR.refl t
  | ok u t₁ =>
      obtain ⟨hassign, rfl⟩ := Check.ofTable_eq_ok.mp hassign
      unfold Check.markAssigned Check.change
      cases hupdate : t₁.update target.name (some true) with
      | ok t₂ =>
          simp only [hupdate]
          exact hR.assign hassign hupdate
      | error e =>
          simp only [hupdate]
          exact hR.refl t₁

end Check.Within

section Frames

variable {R : Table → Table → Prop} (hR : Check.Frame R)
include hR

mutual

/-- **What holds of all that a check may do holds of checking a statement.** -/
theorem within_check : ∀ (s : Stmt) (ctx : Context), Check.Within R (s.check ctx)
  | .assign target value _, ctx => by
      unfold Stmt.check
      exact .assign hR target value
  | .call _ _ _, ctx => by
      unfold Stmt.check
      exact .bind hR (.ofTable hR _) (fun _ => .pure hR)
  | .return _ _, ctx => by
      unfold Stmt.check
      exact .ofTable hR _
  | .ifThen _ yes _, ctx => by
      unfold Stmt.check
      exact .bind hR (.ofTable hR _) (fun _ => within_check_block yes ctx)
  | .ifElse _ yes no _, ctx => by
      unfold Stmt.check
      exact .bind hR (.ofTable hR _) (fun _ => .bind hR (within_check_block yes ctx)
        (fun _ => within_check_block no ctx))
  | .while _ body _, ctx => by
      unfold Stmt.check
      exact .bind hR (.ofTable hR _) (fun _ => within_check_block body _)
  | .break _, ctx => by
      unfold Stmt.check
      exact .ofTable hR _
  | .continue _, ctx => by
      unfold Stmt.check
      exact .ofTable hR _
  | .write _ _, ctx => by
      unfold Stmt.check
      exact .ofTable hR _

/-- Blocks keep a frame, since their scopes are closed behind them. -/
theorem within_check_block : ∀ (b : Block) (ctx : Context), Check.Within R (b.check ctx)
  | ⟨statements, _⟩, ctx => .inScope hR (within_checkAll statements ctx)

/-- Statements in a row keep a frame. -/
theorem within_checkAll : ∀ (ss : List Stmt) (ctx : Context), Check.Within R (checkAll ctx ss)
  | [], _ => .pure hR
  | s :: more, ctx => by
      unfold checkAll
      exact .bind hR (within_check s ctx) (fun _ => within_checkAll more ctx)

end

/-! ### Programs

A program also declares names, so the relation has to cover that as well. -/

variable (hdeclare : ∀ {x : String} {symbol : Symbol} {t t' : Table}, t.declare x symbol = .ok t' → R t t')
include hdeclare

theorem within_declare (name : Ident) (symbol : Symbol) : Check.Within R (Check.declare name symbol) := by
  intro t
  unfold Check.declare Check.change
  cases h : t.declare name.name symbol with
  | ok t' =>
      simp only [h]
      exact hdeclare h
  | error e =>
      simp only [h]
      exact hR.refl t

theorem within_declareVars (ty : Ty) (names : List Ident) : Check.Within R (declareVars ty names) := by
  induction names with
  | nil => exact .pure hR
  | cons name names ih => exact .bind hR (within_declare hR hdeclare name _) (fun _ => ih)

theorem within_declareParams (ps : List (Ident × Ty)) : Check.Within R (declareParams ps) := by
  induction ps with
  | nil => exact .pure hR
  | cons p ps ih => exact .bind hR (within_declare hR hdeclare p.1 _) (fun _ => ih)

theorem within_declareGlobals (ds : List Decl) : Check.Within R (declareGlobals ds) := by
  induction ds with
  | nil => exact .pure hR
  | cons d ds ih =>
      cases d with
      | vars decl => exact .bind hR (within_declareVars hR hdeclare decl.ty decl.names) (fun _ => ih)
      | routine r => exact .bind hR (within_declare hR hdeclare r.name _) (fun _ => ih)

/-- Parameters and statements of a routine, inside the scope of its parameters. -/
theorem within_routineBody (r : Routine) : Check.Within R (do
    declareParams (Param.flatten r.params)
    checkAll { routine := some (r.name.name, r.result) } r.body.statements) :=
  .bind hR (within_declareParams hR hdeclare (Param.flatten r.params))
    (fun _ => within_checkAll hR r.body.statements _)

theorem within_checkRoutines (ds : List Decl) : Check.Within R (checkRoutines ds) := by
  induction ds with
  | nil => exact .pure hR
  | cons d ds ih =>
      cases d with
      | vars decl => exact ih
      | routine r => exact .bind hR (.inScope hR (within_routineBody hR hdeclare r)) (fun _ => ih)

/-- **What holds of all that a check may do holds of checking a program.** -/
theorem within_checks (p : Program) : Check.Within R p.checks :=
  .bind hR (within_declareGlobals hR hdeclare p.declarations) (fun _ =>
    .bind hR (within_checkRoutines hR hdeclare p.declarations) (fun _ => within_check_block hR p.main {}))

end Frames

/-- A check that changes nothing but marks, also where it fails. -/
def Check.Keeps {α : Type} (check : EStateM SemanticError Table α) : Prop :=
  ∀ t, (EStateM.state (check t)).unmarked = t.unmarked

theorem Check.frame_unmarked : Check.Frame (fun t t' => t'.unmarked = t.unmarked) where
  refl _ := rfl
  trans h h' := h'.trans h
  inScope h := by rw [Table.unmarked_exit, h, Table.unmarked_enter, Table.exit_enter]
  assign _ h := Table.unmarked_update h

/-- **Checking a statement changes nothing but marks.** -/
theorem keeps_check (s : Stmt) (ctx : Context) : Check.Keeps (s.check ctx) :=
  within_check Check.frame_unmarked s ctx

theorem keeps_check_block (b : Block) (ctx : Context) : Check.Keeps (b.check ctx) :=
  within_check_block Check.frame_unmarked b ctx

theorem keeps_checkAll (ss : List Stmt) (ctx : Context) : Check.Keeps (checkAll ctx ss) :=
  within_checkAll Check.frame_unmarked ss ctx

/-- A table without its marks is the same behind a check that changes marks only. -/
theorem Check.Keeps.unmarked {c : Check} (hc : Keeps c) {t t' : Table} (h : c t = .ok () t') :
    t'.unmarked = t.unmarked := by
  have hstate := hc t
  rw [h] at hstate
  exact hstate

/-- A check that keeps the table up to marks keeps what its names stand for. -/
theorem Check.Keeps.roleOf {c : Check} (hc : Keeps c) {t t' : Table} (h : c t = .ok () t') :
    t'.roleOf = t.roleOf :=
  Table.roleOf_of_unmarked (hc.unmarked h)

/-! ## Statements -/

section Statements

variable {t : Table} {ctx : Context}

/-- A condition is accepted exactly if it has type boolean. -/
theorem checkCondition_eq_ok {context : String} {cond : Expr} :
    checkCondition context cond t = .ok () ↔ HasType t.roleOf cond .boolean := by
  unfold checkCondition
  rw [Except.bind_eq_ok]
  constructor
  · rintro ⟨ty, hty, h⟩
    cases expectType_eq_ok.mp h
    exact (type_eq_ok_iff cond).mp hty
  · intro h
    exact ⟨.boolean, (type_eq_ok_iff cond).mpr h, rfl⟩

/-- An assignment is accepted exactly if its value has the type of its target. -/
theorem checkAssign_eq_ok {target : Ident} {value : Expr} :
    checkAssign target value t = .ok () ↔
      ∃ ty, Names.Holds t.roleOf target.name ty ∧ HasType t.roleOf value ty := by
  unfold checkAssign
  rw [Except.bind_eq_ok]
  constructor
  · rintro ⟨ty, hty, h⟩
    obtain ⟨found, hfound, h⟩ := Except.bind_eq_ok.mp h
    cases expectType_eq_ok.mp h
    exact ⟨ty, storageType_eq_ok.mp hty, (type_eq_ok_iff value).mp hfound⟩
  · rintro ⟨ty, hty, hvalue⟩
    exact ⟨ty, storageType_eq_ok.mpr hty, Except.bind_eq_ok.mpr
      ⟨ty, (type_eq_ok_iff value).mpr hvalue, expectType_eq_ok.mpr rfl⟩⟩

/-- A call that may be a statement: its routine may be a procedure. -/
theorem callResult_accepted {callee : Ident} {args : List Expr} {span : Span} :
    (∃ r, callResult t callee args span = .ok r) ↔
      ∃ params result, t.roleOf callee.name = some (.routine ⟨params, result⟩) ∧
        HaveTypes t.roleOf args params := by
  unfold callResult
  constructor
  · rintro ⟨r, h⟩
    obtain ⟨signature, hsig, h⟩ := Except.bind_eq_ok.mp h
    obtain ⟨hrole, hlen⟩ := signatureFor_eq_ok.mp hsig
    obtain ⟨_, hargs, _⟩ := Except.bind_eq_ok.mp h
    exact ⟨_, _, hrole, (checkArgs_eq_ok_iff args hlen).mp hargs⟩
  · rintro ⟨params, result, hrole, hargs⟩
    have hlen := hargs.length_eq
    exact ⟨result, Except.bind_eq_ok.mpr ⟨_, signatureFor_eq_ok.mpr ⟨hrole, hlen⟩,
      Except.bind_eq_ok.mpr ⟨(), (checkArgs_eq_ok_iff args hlen).mpr hargs, rfl⟩⟩⟩

/-- A `return` is accepted exactly if it keeps the rule of the routine around it. -/
theorem checkReturn_eq_ok {inLoop : Bool} {value : Option Expr} {span : Span} :
    checkReturn ctx value span t = .ok () ↔
      StmtOk t.roleOf (ctx.routine.map Prod.snd) inLoop (.return value span) := by
  unfold checkReturn
  cases value with
  | none =>
      rw [stmtOk_return_none]
      rcases ctx.routine with _ | ⟨name, _ | ty⟩ <;> simp
  | some e =>
      rw [stmtOk_return_some]
      rcases ctx.routine with _ | ⟨name, _ | ty⟩
      · simp
      · simp
      · -- in a function, the value is compared with the result type
        simp only [Except.bind_eq_ok, expectType_eq_ok, type_eq_ok_iff]
        constructor
        · rintro ⟨_, he, rfl⟩
          exact ⟨_, rfl, he⟩
        · rintro ⟨_, hr, he⟩
          cases hr
          exact ⟨_, he, rfl⟩

/-- Values are accepted exactly if each has some type. -/
theorem checkValues_eq_ok {args : List Expr} :
    checkValues t args = .ok () ↔ ∀ e ∈ args, ∃ ty, HasType t.roleOf e ty := by
  induction args with
  | nil => simp [checkValues]
  | cons e es ih =>
      unfold checkValues
      rw [List.forall_mem_cons, ← ih]
      constructor
      · intro h
        obtain ⟨_, hfirst, hmore⟩ := Except.bind_eq_ok.mp h
        obtain ⟨ty, hty, _⟩ := Except.bind_pure_eq_ok.mp hfirst
        exact ⟨⟨ty, (type_eq_ok_iff e).mp hty⟩, hmore⟩
      · rintro ⟨⟨ty, hty⟩, hmore⟩
        exact Except.bind_eq_ok.mpr ⟨(), Except.bind_pure_eq_ok.mpr
          ⟨ty, (type_eq_ok_iff e).mpr hty, rfl⟩, hmore⟩

end Statements

mutual

/-- **A statement is accepted if it keeps the rules**, in the environment that the table gives. -/
theorem stmt_accepted_iff : ∀ (s : Stmt) {ctx : Context} {t : Table},
    (∃ t', s.check ctx t = .ok () t') ↔
      StmtOk t.roleOf (ctx.routine.map Prod.snd) (decide (ctx.loops ≠ 0)) s
  | .assign target value span, ctx, t => by
      simp only [check_assign, checkAssign_eq_ok, stmtOk_assign]
      refine ⟨fun ⟨_, h, _⟩ => h, fun h => ?_⟩
      -- a name that holds a value is declared, so it can be marked
      have hdecl : (t.lookup? target.name).isSome = true := by
        obtain ⟨ty, hholds, _⟩ := h
        rcases hholds with hrole | hrole
        all_goals
          obtain ⟨symbol, hlook, _⟩ := Option.map_eq_some_iff.mp hrole
          rw [hlook]
          rfl
      exact ⟨_, h, Table.update_eq_ok.mpr ⟨hdecl, rfl⟩⟩
  | .call callee args span, ctx, t => by
      simp only [check_call, callResult_accepted, stmtOk_call]
      exact ⟨fun ⟨_, h, _⟩ => h, fun h => ⟨t, h, rfl⟩⟩
  | .return value span, ctx, t => by
      simp only [check_return]
      exact ⟨fun ⟨_, h, _⟩ => checkReturn_eq_ok.mp h, fun h => ⟨t, checkReturn_eq_ok.mpr h, rfl⟩⟩
  | .ifThen cond yes span, ctx, t => by
      simp only [check_ifThen, checkCondition_eq_ok, stmtOk_ifThen]
      rw [← block_accepted_iff yes]
      exact ⟨fun ⟨t', hcond, hyes⟩ => ⟨hcond, t', hyes⟩, fun ⟨hcond, t', hyes⟩ => ⟨t', hcond, hyes⟩⟩
  | .ifElse cond yes no span, ctx, t => by
      simp only [check_ifElse, checkCondition_eq_ok, stmtOk_ifElse]
      constructor
      · rintro ⟨t', hcond, t₁, hyes, hno⟩
        -- the first block has left marks in the table, which the second does not see
        have hno' := (block_accepted_iff no).mp ⟨t', hno⟩
        rw [(keeps_check_block yes ctx).roleOf hyes] at hno'
        exact ⟨hcond, (block_accepted_iff yes).mp ⟨t₁, hyes⟩, hno'⟩
      · rintro ⟨hcond, hyes, hno⟩
        obtain ⟨t₁, hyes'⟩ := (block_accepted_iff yes).mpr hyes
        rw [← (keeps_check_block yes ctx).roleOf hyes'] at hno
        obtain ⟨t', hno'⟩ := (block_accepted_iff no).mpr hno
        exact ⟨t', hcond, t₁, hyes', hno'⟩
  | .while cond body span, ctx, t => by
      -- in the body there is a loop, whatever was counted before
      have hbody : (∃ t', body.check { ctx with loops := ctx.loops + 1 } t = .ok () t') ↔
          StmtsOk t.roleOf (ctx.routine.map Prod.snd) (decide (ctx.loops + 1 ≠ 0)) body.statements :=
        block_accepted_iff body
      have hloop : decide (ctx.loops + 1 ≠ 0) = true := decide_eq_true (Nat.succ_ne_zero _)
      rw [hloop] at hbody
      simp only [check_while, checkCondition_eq_ok, stmtOk_while]
      rw [← hbody]
      exact ⟨fun ⟨t', hcond, h⟩ => ⟨hcond, t', h⟩, fun ⟨hcond, t', h⟩ => ⟨t', hcond, h⟩⟩
  | .break span, ctx, t => by
      simp only [check_break, stmtOk_break, decide_eq_true_iff]
      exact ⟨fun ⟨_, h, _⟩ => h, fun h => ⟨t, h, rfl⟩⟩
  | .continue span, ctx, t => by
      simp only [check_continue, stmtOk_continue, decide_eq_true_iff]
      exact ⟨fun ⟨_, h, _⟩ => h, fun h => ⟨t, h, rfl⟩⟩
  | .write args span, ctx, t => by
      simp only [check_write, checkValues_eq_ok, stmtOk_write]
      exact ⟨fun ⟨_, h, _⟩ => h, fun h => ⟨t, h, rfl⟩⟩

/-- A block is accepted exactly if its statements keep the rules: its scope declares no names. -/
theorem block_accepted_iff : ∀ (b : Block) {ctx : Context} {t : Table},
    (∃ t', b.check ctx t = .ok () t') ↔
      StmtsOk t.roleOf (ctx.routine.map Prod.snd) (decide (ctx.loops ≠ 0)) b.statements
  | ⟨statements, _⟩, ctx, t => by
      have hall : (∃ t', checkAll ctx statements t.enter = .ok () t') ↔
          StmtsOk t.enter.roleOf (ctx.routine.map Prod.snd) (decide (ctx.loops ≠ 0)) statements :=
        all_accepted_iff statements
      rw [Table.roleOf_enter] at hall
      rw [← hall]
      constructor
      · rintro ⟨t', h⟩
        obtain ⟨t₁, h₁, _⟩ := check_block.mp h
        exact ⟨t₁, h₁⟩
      · rintro ⟨t₁, h₁⟩
        exact ⟨t₁.exit, check_block.mpr ⟨t₁, h₁, rfl⟩⟩

/-- Statements in a row are accepted exactly if each keeps the rules, since none changes what names stand
    for. -/
theorem all_accepted_iff : ∀ (ss : List Stmt) {ctx : Context} {t : Table},
    (∃ t', checkAll ctx ss t = .ok () t') ↔
      StmtsOk t.roleOf (ctx.routine.map Prod.snd) (decide (ctx.loops ≠ 0)) ss
  | [], ctx, t => ⟨fun _ => .nil, fun _ => ⟨t, checkAll_nil.mpr rfl⟩⟩
  | s :: more, ctx, t => by
      simp only [checkAll_cons, stmtsOk_cons]
      constructor
      · rintro ⟨t', t₁, hs, hmore⟩
        have hmore' := (all_accepted_iff more).mp ⟨t', hmore⟩
        rw [(keeps_check s ctx).roleOf hs] at hmore'
        exact ⟨(stmt_accepted_iff s).mp ⟨t₁, hs⟩, hmore'⟩
      · rintro ⟨hs, hmore⟩
        obtain ⟨t₁, hs'⟩ := (stmt_accepted_iff s).mpr hs
        rw [← (keeps_check s ctx).roleOf hs'] at hmore
        obtain ⟨t', hmore'⟩ := (all_accepted_iff more).mpr hmore
        exact ⟨t', t₁, hs', hmore'⟩

end

end TinyPascal
