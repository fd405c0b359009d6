import TinyPascal.Proofs.Outcome
import TinyPascal.Typing.Program

/-!
# `Proofs.Typing.Checks` — when a check succeeds, construct by construct

Proofs about checking do not unfold `Stmt.check`. They use the equivalences of this module, one for each
construct, which say when its check succeeds and what the table is afterwards.

## Contents
- **Steps.** `Check.ofTable_eq_ok`, `Check.inScope_eq_ok`, `Check.change_eq_ok`.
- **Statements.** `check_assign`, `check_while` and the others; `checkAll_cons` for sequences.
- **Programs.** `check_eq_ok`: the three passes over a program.
-/

namespace TinyPascal

/-! ## Steps -/

namespace Check

variable {t t' : Table}

/-- A check that only looks at the table succeeds as the look does, and keeps the table. -/
theorem ofTable_eq_ok {α : Type} {f : Table → Except SemanticError α} {a : α} :
    ofTable f t = .ok a t' ↔ f t = .ok a ∧ t' = t := by
  unfold ofTable
  cases h : f t with
  | ok b =>
      constructor
      · intro he
        cases he
        exact ⟨rfl, rfl⟩
      · rintro ⟨he, rfl⟩
        cases he
        rfl
  | error e => simp

/-- A check in a scope of its own succeeds as it does in the opened scope, which is closed behind it. -/
theorem inScope_eq_ok {check : Check} :
    inScope check t = .ok () t' ↔ ∃ t₁, check t.enter = .ok () t₁ ∧ t' = t₁.exit := by
  unfold inScope
  cases h : check t.enter with
  | ok u t₁ =>
      constructor
      · intro he
        cases he
        exact ⟨t₁, rfl, rfl⟩
      · rintro ⟨t₂, he, rfl⟩
        cases he
        rfl
  | error e t₁ => simp

/-- A change of the table succeeds as the table allows it. -/
theorem change_eq_ok {span : Span} {f : Table → Except SymbolError Table} :
    change span f t = .ok () t' ↔ f t = .ok t' := by
  unfold change
  cases h : f t with
  | ok t₁ =>
      constructor
      · intro he
        cases he
        rfl
      · intro he
        cases he
        rfl
  | error e => simp

end Check

/-! ## Statements -/

section Statements

variable {ctx : Context} {t t' : Table} {span : Span}

/-- An assignment is accepted if its types agree, and marks its target. -/
theorem check_assign {target : Ident} {value : Expr} :
    (Stmt.assign target value span).check ctx t = .ok () t' ↔
      checkAssign target value t = .ok () ∧ t.update target.name (some true) = .ok t' := by
  unfold Stmt.check
  rw [EStateM.bind_eq_ok]
  constructor
  · rintro ⟨_, t₁, h, hmark⟩
    obtain ⟨h, rfl⟩ := Check.ofTable_eq_ok.mp h
    exact ⟨h, Check.change_eq_ok.mp hmark⟩
  · rintro ⟨h, hmark⟩
    exact ⟨(), t, Check.ofTable_eq_ok.mpr ⟨h, rfl⟩, Check.change_eq_ok.mpr hmark⟩

/-- A call statement is accepted if the call has a result at all, and leaves the table alone. -/
theorem check_call {callee : Ident} {args : List Expr} :
    (Stmt.call callee args span).check ctx t = .ok () t' ↔
      (∃ r, callResult t callee args span = .ok r) ∧ t' = t := by
  unfold Stmt.check
  show (Check.ofTable (callResult · callee args span) >>= fun _ => pure ()) t = _ ↔ _
  rw [EStateM.bind_pure_eq_ok]
  constructor
  · rintro ⟨r, h, _⟩
    obtain ⟨h, rfl⟩ := Check.ofTable_eq_ok.mp h
    exact ⟨⟨r, h⟩, rfl⟩
  · rintro ⟨⟨r, h⟩, rfl⟩
    exact ⟨r, Check.ofTable_eq_ok.mpr ⟨h, rfl⟩, rfl⟩

theorem check_return {value : Option Expr} :
    (Stmt.return value span).check ctx t = .ok () t' ↔
      checkReturn ctx value span t = .ok () ∧ t' = t := by
  unfold Stmt.check
  exact Check.ofTable_eq_ok

/-- A condition, and what is checked after it. -/
theorem check_test {context : String} {cond : Expr} {rest : Check} :
    (do Check.ofTable (checkCondition context cond); rest : Check) t = .ok () t' ↔
      checkCondition context cond t = .ok () ∧ rest t = .ok () t' := by
  rw [EStateM.bind_eq_ok]
  constructor
  · rintro ⟨_, t₁, h, hrest⟩
    obtain ⟨h, rfl⟩ := Check.ofTable_eq_ok.mp h
    exact ⟨h, hrest⟩
  · rintro ⟨h, hrest⟩
    exact ⟨(), t, Check.ofTable_eq_ok.mpr ⟨h, rfl⟩, hrest⟩

/-- Two checks, one after the other. -/
theorem check_both {first second : Check} :
    (do first; second : Check) t = .ok () t' ↔
      ∃ t₁, first t = .ok () t₁ ∧ second t₁ = .ok () t' := by
  rw [EStateM.bind_eq_ok]
  constructor
  · rintro ⟨_, t₁, h, hs⟩
    exact ⟨t₁, h, hs⟩
  · rintro ⟨t₁, h, hs⟩
    exact ⟨(), t₁, h, hs⟩

/-- An `if` is accepted with its condition and its block. -/
theorem check_ifThen {cond : Expr} {yes : Block} :
    (Stmt.ifThen cond yes span).check ctx t = .ok () t' ↔
      checkCondition "if condition" cond t = .ok () ∧ yes.check ctx t = .ok () t' := by
  unfold Stmt.check
  exact check_test

/-- The second block is checked with the marks that the first one has set. -/
theorem check_ifElse {cond : Expr} {yes no : Block} :
    (Stmt.ifElse cond yes no span).check ctx t = .ok () t' ↔
      checkCondition "if condition" cond t = .ok () ∧
        ∃ t₁, yes.check ctx t = .ok () t₁ ∧ no.check ctx t₁ = .ok () t' := by
  unfold Stmt.check
  rw [check_test, check_both]

/-- The body of a loop is checked with one more loop around it. -/
theorem check_while {cond : Expr} {body : Block} :
    (Stmt.while cond body span).check ctx t = .ok () t' ↔
      checkCondition "while condition" cond t = .ok () ∧
        body.check { ctx with loops := ctx.loops + 1 } t = .ok () t' := by
  unfold Stmt.check
  exact check_test

theorem checkInLoop_eq_ok {keyword : String} :
    checkInLoop ctx keyword span = .ok () ↔ ctx.loops ≠ 0 := by
  unfold checkInLoop
  split <;> simp [*]

theorem check_break :
    (Stmt.break span).check ctx t = .ok () t' ↔ ctx.loops ≠ 0 ∧ t' = t := by
  unfold Stmt.check
  rw [Check.ofTable_eq_ok, checkInLoop_eq_ok]

theorem check_continue :
    (Stmt.continue span).check ctx t = .ok () t' ↔ ctx.loops ≠ 0 ∧ t' = t := by
  unfold Stmt.check
  rw [Check.ofTable_eq_ok, checkInLoop_eq_ok]

theorem check_write {args : List Expr} :
    (Stmt.write args span).check ctx t = .ok () t' ↔ checkValues t args = .ok () ∧ t' = t := by
  unfold Stmt.check
  exact Check.ofTable_eq_ok

theorem check_block {b : Block} :
    b.check ctx t = .ok () t' ↔
      ∃ t₁, checkAll ctx b.statements t.enter = .ok () t₁ ∧ t' = t₁.exit := by
  cases b
  unfold Block.check
  exact Check.inScope_eq_ok

theorem checkAll_nil : checkAll ctx [] t = .ok () t' ↔ t' = t := by
  unfold checkAll
  constructor
  · intro h
    cases h
    rfl
  · rintro rfl
    rfl

/-- Each statement is checked with the marks of those in front of it. -/
theorem checkAll_cons {s : Stmt} {more : List Stmt} :
    checkAll ctx (s :: more) t = .ok () t' ↔
      ∃ t₁, s.check ctx t = .ok () t₁ ∧ checkAll ctx more t₁ = .ok () t' := by
  show (do s.check ctx; checkAll ctx more : Check) t = _ ↔ _
  exact check_both

end Statements

/-! ## Programs -/

/-- A routine is accepted if its statements are, in the scope of its parameters. -/
theorem check_routine {r : Routine} {t t' : Table} :
    r.check t = .ok () t' ↔
      ∃ t₁ t₂, declareParams (Param.flatten r.params) t.enter = .ok () t₁ ∧
        checkAll { routine := some (r.name.name, r.result) } r.body.statements t₁ = .ok () t₂ ∧
        t' = t₂.exit := by
  unfold Routine.check
  rw [Check.inScope_eq_ok]
  constructor
  · rintro ⟨t₂, h, rfl⟩
    obtain ⟨t₁, hparams, hbody⟩ := check_both.mp h
    exact ⟨t₁, t₂, hparams, hbody, rfl⟩
  · rintro ⟨t₁, t₂, hparams, hbody, rfl⟩
    exact ⟨t₂, check_both.mpr ⟨t₁, hparams, hbody⟩, rfl⟩

/-- **The three passes**: the global names, the bodies of the routines, the main block. -/
theorem check_eq_ok {p : Program} {t : Table} :
    p.check = .ok t ↔
      ∃ t₁ t₂, declareGlobals p.declarations {} = .ok () t₁ ∧
        checkRoutines p.declarations t₁ = .ok () t₂ ∧ p.main.check {} t₂ = .ok () t := by
  have hchecks : p.check = .ok t ↔ p.checks {} = .ok () t := by
    unfold Program.check
    cases h : p.checks {} with
    | ok u t₁ =>
        constructor
        · intro he
          cases he
          rfl
        · intro he
          cases he
          rfl
    | error e t₁ => simp
  rw [hchecks]
  unfold Program.checks
  constructor
  · intro h
    obtain ⟨t₁, hglobals, h⟩ := check_both.mp h
    obtain ⟨t₂, hroutines, hmain⟩ := check_both.mp h
    exact ⟨t₁, t₂, hglobals, hroutines, hmain⟩
  · rintro ⟨t₁, t₂, hglobals, hroutines, hmain⟩
    exact check_both.mpr ⟨t₁, hglobals, check_both.mpr ⟨t₂, hroutines, hmain⟩⟩

end TinyPascal
