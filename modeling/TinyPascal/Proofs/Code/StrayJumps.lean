import TinyPascal.Proofs.Code.Lowering
import TinyPascal.Proofs.Typing.Checks

/-!
# `Proofs.Code.StrayJumps` — where lowering fails

Lowering stops at a `break` or `continue` that has no loop around it, and nowhere else. Checking counts
the loops around a statement, lowering carries the labels of the innermost one; both are compared with
the list of stray jumps of a tree (`Stmt.strays`), which knows nothing of either.

## Contents
- **Stray jumps.** `Stmt.strays`, `Program.strays`: in textual order.
- **Lowering.** `error?_lower`, `codeWith_eq_error_iff`: lowering fails with the first stray jump.
- **Checking.** `strays_of_check`: a tree that was checked has none.
-/

namespace TinyPascal

/-! ## Stray jumps -/

mutual

/-- The jumps of a statement without a loop around them; `inLoop` says whether the statement has one. -/
def Stmt.strays (inLoop : Bool) : Stmt → List StrayJump
  | .break span => if inLoop then [] else [⟨.break, span⟩]
  | .continue span => if inLoop then [] else [⟨.continue, span⟩]
  | .ifThen _ yes _ => yes.strays inLoop
  | .ifElse _ yes no _ => yes.strays inLoop ++ no.strays inLoop
  | .while _ body _ => body.strays true
  | .assign _ _ _ | .call _ _ _ | .return _ _ | .write _ _ => []

def Block.strays (inLoop : Bool) : Block → List StrayJump
  | ⟨statements, _⟩ => straysOf inLoop statements

def straysOf (inLoop : Bool) : List Stmt → List StrayJump
  | [] => []
  | s :: more => s.strays inLoop ++ straysOf inLoop more

end

/-- The stray jumps of a program; no loop reaches over the end of a body. -/
def Program.strays (p : Program) : List StrayJump :=
  p.bodies.flatMap (fun b => b.strays false)

mutual

/-- Inside a loop no jump is stray. -/
theorem strays_inLoop : ∀ s : Stmt, s.strays true = []
  | .break _ | .continue _ => rfl
  | .ifThen _ yes _ => strays_inLoop_block yes
  | .ifElse _ yes no _ => by
      unfold Stmt.strays
      rw [strays_inLoop_block yes, strays_inLoop_block no, List.append_nil]
  | .while _ body _ => strays_inLoop_block body
  | .assign _ _ _ | .call _ _ _ | .return _ _ | .write _ _ => rfl

theorem strays_inLoop_block : ∀ b : Block, b.strays true = []
  | ⟨statements, _⟩ => straysOf_inLoop statements

theorem straysOf_inLoop : ∀ ss : List Stmt, straysOf true ss = []
  | [] => rfl
  | s :: more => by
      unfold straysOf
      rw [strays_inLoop s, straysOf_inLoop more, List.append_nil]

end

/-! ## Lowering -/

mutual

/-- **Lowering fails with the first stray jump**, if there is one. -/
theorem error?_lower : ∀ (st : Stmt) (loop : Option Loop) (s : Supply),
    EStateM.error? (st.lower loop s) = (st.strays loop.isSome).head?
  | .assign target value _, loop, s => by rw [lower_assign]; rfl
  | .call callee args _, loop, s => by rw [lower_call]; rfl
  | .return none _, loop, s => by rw [lower_return_none]; rfl
  | .return (some value) _, loop, s => by rw [lower_return_some]; rfl
  | .ifThen cond yes _, loop, s => by
      rw [lower_ifThen, EStateM.error?_bind_pure (error?_lower_block yes loop)]
      rfl
  | .ifElse cond yes no _, loop, s => by
      -- the second block is lowered only if the first has no stray jump
      have hno := fun (a : List Instr) => EStateM.error?_bind_pure
        (g := fun b => Layout.ifElse (cond.lower s.temps) (labelName "L_then_" (s.labels + 1))
          (labelName "L_else_" (s.labels + 2)) (labelName "L_end_" (s.labels + 3)) a b)
        (error?_lower_block no loop)
      rw [lower_ifElse, EStateM.error?_bind (error?_lower_block yes loop) hno]
      exact List.head?_append.symm
  | .while cond body _, loop, s => by
      rw [lower_while, EStateM.error?_bind_pure (error?_lower_block body _)]
      rfl
  | .break _, none, s => by rw [lower_break_stray]; rfl
  | .break _, some l, s => by rw [lower_break]; rfl
  | .continue _, none, s => by rw [lower_continue_stray]; rfl
  | .continue _, some l, s => by rw [lower_continue]; rfl
  | .write args _, loop, s => by rw [lower_write]; rfl

/-- Lowering a block fails at its first stray jump, and only there. -/
theorem error?_lower_block : ∀ (b : Block) (loop : Option Loop) (s : Supply),
    EStateM.error? (b.lower loop s) = (b.strays loop.isSome).head?
  | ⟨statements, _⟩, loop, s => error?_lowerAll statements loop s

theorem error?_lowerAll : ∀ (ss : List Stmt) (loop : Option Loop) (s : Supply),
    EStateM.error? (lowerAll loop ss s) = (straysOf loop.isSome ss).head?
  | [], loop, s => by rw [lowerAll_nil]; rfl
  | st :: more, loop, s => by
      have hmore := fun (a : List Instr) => EStateM.error?_bind_pure (g := fun b => a ++ b)
        (error?_lowerAll more loop)
      rw [lowerAll_cons, EStateM.error?_bind (error?_lower st loop) hmore]
      exact List.head?_append.symm

end

theorem error?_lower_routine (r : Routine) (s : Supply) :
    EStateM.error? (r.lower s) = (r.body.strays false).head? := by
  unfold Routine.lower
  exact EStateM.error?_bind_pure (error?_lower_block r.body none) s

theorem error?_lowerDecls (ds : List Decl) (s : Supply) :
    EStateM.error? (lowerDecls ds s)
      = ((ds.filterMap Decl.routine?).flatMap (fun r => r.body.strays false)).head? := by
  induction ds generalizing s with
  | nil => rfl
  | cons d ds ih =>
      cases d with
      | vars decl =>
          unfold lowerDecls
          exact EStateM.error?_bind_pure ih s
      | routine r =>
          unfold lowerDecls
          rw [EStateM.error?_bind (error?_lower_routine r)
            (fun a => EStateM.error?_bind_pure (g := fun b => a ++ b) ih)]
          exact List.head?_append.symm

/-- The code of a program fails with the first stray jump of the program, whatever names were handed out
    before. -/
theorem error?_lower_program (p : Program) (s : Supply) :
    EStateM.error? (p.lower s) = p.strays.head? := by
  unfold Program.lower
  rw [EStateM.error?_bind (error?_lowerDecls p.declarations)
    (fun a => EStateM.error?_bind_pure (error?_lower_block p.main none))]
  unfold Program.strays Program.bodies
  rw [List.flatMap_append, List.head?_append, List.flatMap_map]
  simp [Program.routines]

/-- A program is turned down with its first stray jump. -/
theorem codeWith_eq_error_iff {p : Program} {s : Supply} {jump : StrayJump} :
    (p.codeWith s).1 = .error jump ↔ p.strays.head? = some jump := by
  rw [← error?_lower_program p s]
  unfold Program.codeWith
  cases p.lower s with
  | ok code s' => exact ⟨nofun, nofun⟩
  | error e s' => simp

/-- A program without stray jumps has code. -/
theorem exists_code_of_strays {p : Program} (h : p.strays = []) : ∃ code, p.code = .ok code := by
  have hnone : EStateM.error? (p.lower {}) = none := by
    rw [error?_lower_program, h]
    rfl
  obtain ⟨code, s', hcode⟩ := EStateM.error?_eq_none.mp hnone
  exact ⟨code, by rw [Program.code, Program.codeWith, hcode]⟩

/-! ## Checking -/

mutual

/-- Checking counts loops: a statement that was checked under `ctx` has no stray jump if `ctx` has no
    loop, and inside a loop there is none anyway. -/
theorem strays_of_check : ∀ (s : Stmt) {ctx : Context} {t t' : Table},
    s.check ctx t = .ok () t' → s.strays (decide (ctx.loops ≠ 0)) = []
  | .assign _ _ _, _, _, _, _ | .call _ _ _, _, _, _, _ | .return _ _, _, _, _, _
  | .write _ _, _, _, _, _ => rfl
  | .break _, ctx, t, t', h => by
      have hloop := (check_break.mp h).1
      simp [Stmt.strays, hloop]
  | .continue _, ctx, t, t', h => by
      have hloop := (check_continue.mp h).1
      simp [Stmt.strays, hloop]
  | .ifThen _ yes _, ctx, t, t', h => strays_of_check_block yes (check_ifThen.mp h).2
  | .ifElse _ yes no _, ctx, t, t', h => by
      obtain ⟨_, t₁, hyes, hno⟩ := check_ifElse.mp h
      unfold Stmt.strays
      rw [strays_of_check_block yes hyes, strays_of_check_block no hno, List.append_nil]
  | .while _ body _, _, _, _, _ => strays_inLoop_block body

/-- A block that passes the check has no stray jump. -/
theorem strays_of_check_block : ∀ (b : Block) {ctx : Context} {t t' : Table},
    b.check ctx t = .ok () t' → b.strays (decide (ctx.loops ≠ 0)) = []
  | ⟨statements, _⟩, ctx, t, t', h => by
      obtain ⟨t₁, hall, _⟩ := check_block.mp h
      exact straysOf_of_checkAll statements hall

theorem straysOf_of_checkAll : ∀ (ss : List Stmt) {ctx : Context} {t t' : Table},
    checkAll ctx ss t = .ok () t' → straysOf (decide (ctx.loops ≠ 0)) ss = []
  | [], _, _, _, _ => rfl
  | s :: more, ctx, t, t', h => by
      obtain ⟨t₁, hs, hmore⟩ := checkAll_cons.mp h
      unfold straysOf
      rw [strays_of_check s hs, straysOf_of_checkAll more hmore, List.append_nil]

end

/-- The bodies of checked routines have no stray jumps. -/
theorem strays_of_checkRoutines {ds : List Decl} {t t' : Table}
    (h : checkRoutines ds t = .ok () t') :
    ∀ r ∈ ds.filterMap Decl.routine?, r.body.strays false = [] := by
  induction ds generalizing t with
  | nil => simp
  | cons d ds ih =>
      cases d with
      | vars decl => exact ih h
      | routine r =>
          unfold checkRoutines at h
          obtain ⟨t₁, hr, hmore⟩ := check_both.mp h
          obtain ⟨_, _, _, hbody, _⟩ := check_routine.mp hr
          refine List.forall_mem_cons.mpr ⟨?_, ih hmore⟩
          -- a body is checked with no loop around it
          have hstrays := straysOf_of_checkAll _ hbody
          cases hb : r.body
          rw [hb] at hstrays
          exact hstrays

/-- **Checked programs have no stray jumps.** -/
theorem strays_of_check_program {p : Program} {t : Table} (h : p.check = .ok t) : p.strays = [] := by
  obtain ⟨t₁, t₂, _, hroutines, hmain⟩ := check_eq_ok.mp h
  unfold Program.strays Program.bodies
  rw [List.flatMap_append, List.append_eq_nil_iff]
  constructor
  · rw [List.flatMap_map, List.flatMap_eq_nil_iff]
    exact strays_of_checkRoutines hroutines
  · have hstrays := strays_of_check_block _ hmain
    simpa using hstrays

/-- A checked program has code. -/
theorem exists_code_of_check {p : Program} {t : Table} (h : p.check = .ok t) :
    ∃ code, p.code = .ok code :=
  exists_code_of_strays (strays_of_check_program h)

end TinyPascal
