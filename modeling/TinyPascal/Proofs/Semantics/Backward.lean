import TinyPascal.Proofs.Semantics.Forward

/-!
# `Proofs.Semantics.Backward` — the tree does what the machine does

If the machine ends, the tree has run. The simulation tells where the code of a tree leads once the tree
is known to run, so it remains to show **that** it runs. The argument walks over the tree beside the run
of the machine: a part of the tree runs because the machine gets past its code, and the run that is left
behind it is not longer.

Two things are not parts of the tree, the body of a routine that is called and the next round of a loop.
There the run of the machine that is left is shorter.

## Contents
- **Predicates.** `EvalBack`, `ArgsBack`, `ExecBack`, `AllBack`, `PrintBack`, and `CallBack` for the
  calls that end within a number of steps.
- **Expressions** and **statements**, construct by construct.
- **Whole runs.** `callBack`, by induction on the number of steps; `runs_of_ends`.
-/

namespace TinyPascal
namespace Machine

variable {V : Type} {I : Meaning V} {p : Program} {program : List Instr}

/-! ## Predicates -/

/-- A call after which the machine ends in `n` steps is a call of the tree. -/
def CallBack (I : Meaning V) (p : Program) (program : List Instr) (n : Nat) : Prop :=
  ∀ {w wf : World V} {f : String} {vs : List V} {s : Section} {callers : List (Caller V)},
    Section.find? (some f) program = some s → s.params.length = vs.length →
    run I program n (.active (.enter s vs) callers w) = some (.ended wf) →
    ∃ r w', Calls I p w f vs r w'

/-- An expression has a value if the machine ends when it starts with its code. -/
def EvalBack (I : Meaning V) (p : Program) (program : List Instr) (e : Expr) : Prop :=
  ∀ (n k : Nat) (code : List Instr) (pc : Nat) (σ τ : Activation V) (callers : List (Caller V))
    (w wf : World V), (∀ m < n, CallBack I p program m) → Tame e →
    CodeAt code pc (e.lower k).code → Agree σ τ →
    run I program n (.active ⟨code, pc, τ⟩ callers w) = some (.ended wf) →
    ∃ r w', Eval I p σ w e r w'

/-- The same of arguments. -/
def ArgsBack (I : Meaning V) (p : Program) (program : List Instr) (es : List Expr) : Prop :=
  ∀ (n k : Nat) (code : List Instr) (pc : Nat) (σ τ : Activation V) (callers : List (Caller V))
    (w wf : World V), (∀ m < n, CallBack I p program m) → TameArgs es →
    CodeAt code pc (lowerArgs es k).code → Agree σ τ →
    run I program n (.active ⟨code, pc, τ⟩ callers w) = some (.ended wf) →
    ∃ rs w', EvalArgs I p σ w es rs w'

/-- The same of the arguments of a `writeln`. -/
def PrintBack (I : Meaning V) (p : Program) (program : List Instr) (es : List Expr) : Prop :=
  ∀ (n k : Nat) (code : List Instr) (pc : Nat) (σ τ : Activation V) (callers : List (Caller V))
    (w wf : World V), (∀ m < n, CallBack I p program m) → (∀ e ∈ es, Tame e) →
    CodeAt code pc (lowerPrints es k).code → Agree σ τ →
    run I program n (.active ⟨code, pc, τ⟩ callers w) = some (.ended wf) →
    ∃ w', Prints I p σ w es w'

/-- A statement comes to an end if the machine ends when it starts with its code. -/
def ExecBack (I : Meaning V) (p : Program) (program : List Instr) (s : Stmt) : Prop :=
  ∀ (n : Nat) (loop : Option Loop) (supply supply' : Supply) (body code : List Instr) (pc : Nat)
    (σ τ : Activation V) (callers : List (Caller V)) (w wf : World V),
    (∀ m < n, CallBack I p program m) → TameCode s.exprs s.targets →
    s.lower loop supply = .ok body supply' → Placed code pc body loop → Agree σ τ →
    run I program n (.active ⟨code, pc, τ⟩ callers w) = some (.ended wf) →
    ∃ exit σ' w', Exec I p σ w s exit σ' w'

/-- The same of statements in a row. -/
def AllBack (I : Meaning V) (p : Program) (program : List Instr) (ss : List Stmt) : Prop :=
  ∀ (n : Nat) (loop : Option Loop) (supply supply' : Supply) (body code : List Instr) (pc : Nat)
    (σ τ : Activation V) (callers : List (Caller V)) (w wf : World V),
    (∀ m < n, CallBack I p program m) → TameCode (exprsOf ss) (targetsOf ss) →
    lowerAll loop ss supply = .ok body supply' → Placed code pc body loop → Agree σ τ →
    run I program n (.active ⟨code, pc, τ⟩ callers w) = some (.ended wf) →
    ∃ exit σ' w', ExecAll I p σ w ss exit σ' w'

/-! ## Getting past code -/

section Advance

variable {n k pc : Nat} {code : List Instr} {σ τ : Activation V} {callers : List (Caller V)}
  {w wf : World V}

/-- The instruction that a machine which ends is about to execute. -/
theorem execute_of_run {f : Frame V} {i : Instr} (hi : f.code[f.pc]? = some i)
    (hn : run I program n (.active f callers w) = some (.ended wf)) :
    ∃ t m, execute I program f callers w i = some t ∧ n = m + 1 ∧
      run I program m t = some (.ended wf) := by
  obtain ⟨t, m, ht, hm, hrun⟩ := step_of_run hn
  rw [step_active hi] at ht
  exact ⟨t, m, ht, hm, hrun⟩

/-- **Past an expression.** It has a value, the machine finds it in its place, and the run that is left is
    not longer. -/
theorem EvalBack.advance {e : Expr} (h : EvalBack I p program e) (hl : Linked p program)
    (hp : TameProgram p) (hcb : ∀ m < n, CallBack I p program m) (ht : Tame e)
    (hcode : CodeAt code pc (e.lower k).code) (ha : Agree σ τ)
    (hn : run I program n (.active ⟨code, pc, τ⟩ callers w) = some (.ended wf)) :
    ∃ r w' τ' m, Eval I p σ w e r w' ∧ Keeps k τ τ' ∧ τ'.read w' (e.lower k).result = r ∧ m ≤ n ∧
      run I program m (.active ⟨code, pc + (e.lower k).code.length, τ'⟩ callers w')
        = some (.ended wf) := by
  obtain ⟨r, w', he⟩ := h n k code pc σ τ callers w wf hcb ht hcode ha hn
  obtain ⟨τ', hr, hk, hv⟩ := forward_eval hl hp he k code pc τ callers ht hcode ha
  obtain ⟨m, hm, hrun⟩ := run_of_reaches hr hn
  exact ⟨r, w', τ', m, he, hk, hv, hm, hrun⟩

/-- Past arguments. -/
theorem ArgsBack.advance {es : List Expr} (h : ArgsBack I p program es) (hl : Linked p program)
    (hp : TameProgram p) (hcb : ∀ m < n, CallBack I p program m) (ht : TameArgs es)
    (hcode : CodeAt code pc (lowerArgs es k).code) (ha : Agree σ τ)
    (hn : run I program n (.active ⟨code, pc, τ⟩ callers w) = some (.ended wf)) :
    ∃ rs w' τ' m, EvalArgs I p σ w es rs w' ∧ Keeps k τ τ' ∧
      (lowerArgs es k).result.map (τ'.read w') = rs ∧ m ≤ n ∧
      run I program m (.active ⟨code, pc + (lowerArgs es k).code.length, τ'⟩ callers w')
        = some (.ended wf) := by
  obtain ⟨rs, w', he⟩ := h n k code pc σ τ callers w wf hcb ht hcode ha hn
  obtain ⟨τ', hr, hk, hv⟩ := forward_args hl hp he k code pc τ callers ht hcode ha
  obtain ⟨m, hm, hrun⟩ := run_of_reaches hr hn
  exact ⟨rs, w', τ', m, he, hk, hv, hm, hrun⟩

end Advance

/-! ## Expressions -/

section Expressions

variable {e left right : Expr} {es : List Expr} {span : Span}

theorem EvalBack.paren (h : EvalBack I p program e) : EvalBack I p program (.paren e span) := by
  intro n k code pc σ τ callers w wf hcb ht hcode ha hn
  obtain ⟨r, w', he⟩ := h n k code pc σ τ callers w wf hcb ht.paren hcode ha hn
  exact ⟨r, w', .paren he⟩

theorem EvalBack.not (hl : Linked p program) (hp : TameProgram p) (h : EvalBack I p program e) :
    EvalBack I p program (.not e span) := by
  intro n k code pc σ τ callers w wf hcb ht hcode ha hn
  simp only [Expr.lower] at hcode
  obtain ⟨r, w', τ', m, he, _, hv, _, hrun⟩ := h.advance hl hp hcb ht.not hcode.left ha hn
  obtain ⟨t, _, hx, _, _⟩ := execute_of_run hcode.right.head hrun
  -- the instruction has read an operand and negated it
  simp only [execute, Option.bind_eq_bind, Option.bind_eq_some_iff] at hx
  obtain ⟨a, hread, v, hneg, _⟩ := hx
  rw [hv] at hread
  subst hread
  exact ⟨some v, w', .not he hneg⟩

/-- Both operands have values, and the machine gets past the operation only if it has one. -/
theorem EvalBack.binary {op : BinOp} (hl : Linked p program) (hp : TameProgram p)
    (h : EvalBack I p program left) (h' : EvalBack I p program right) :
    EvalBack I p program (.binary op left right span) := by
  intro n k code pc σ τ callers w wf hcb ht hcode ha hn
  simp only [Expr.lower, List.append_assoc] at hcode
  obtain ⟨r₁, w₁, τ₁, m₁, he₁, hk₁, hv₁, hle₁, hrun₁⟩ :=
    h.advance hl hp hcb ht.left hcode.left ha hn
  have ha₁ := hk₁.agree ha
  have hcb₁ : ∀ m < m₁, CallBack I p program m := fun m hm => hcb m (Nat.lt_of_lt_of_le hm hle₁)
  obtain ⟨r₂, w₂, τ₂, m₂, he₂, hk₂, hv₂, _, hrun₂⟩ :=
    h'.advance hl hp hcb₁ ht.right hcode.right.left ha₁ hrun₁
  -- the operator finds the left value where the code of the left operand has put it
  have hv₁' : τ₂.read w₂ (left.lower k).result = r₁ := by
    rw [← hv₁]
    exact read_result_kept ht.left ha₁ hk₂
      (fun x hx => world_eq_of_eval _ (hasCall_of_clearOf ht.clear hx) he₂)
  obtain ⟨t, _, hx, _, _⟩ := execute_of_run hcode.right.right.head hrun₂
  -- the operator was applied, so both operands have values for which it is defined
  simp only [execute, Option.bind_eq_bind, Option.bind_eq_some_iff] at hx
  obtain ⟨a, hread₁, b, hread₂, v, hop, _⟩ := hx
  rw [hv₁'] at hread₁
  rw [hv₂] at hread₂
  subst hread₁ hread₂
  exact ⟨some v, w₂, .binary he₁ he₂ hop⟩

/-- Each argument has a value, one after the other. -/
theorem ArgsBack.cons (hl : Linked p program) (hp : TameProgram p) (h : EvalBack I p program e)
    (hs : ArgsBack I p program es) : ArgsBack I p program (e :: es) := by
  intro n k code pc σ τ callers w wf hcb ht hcode ha hn
  simp only [lowerArgs] at hcode
  obtain ⟨r, w₁, τ₁, m₁, he, hk₁, _, hle₁, hrun₁⟩ := h.advance hl hp hcb ht.head hcode.left ha hn
  have hcb₁ : ∀ m < m₁, CallBack I p program m := fun m hm => hcb m (Nat.lt_of_lt_of_le hm hle₁)
  obtain ⟨rs, w₂, hes⟩ := hs m₁ _ code _ σ τ₁ callers w₁ wf hcb₁ ht.tail hcode.right
    (hk₁.agree ha) hrun₁
  exact ⟨r :: rs, w₂, .cons he hes⟩

/-- The arguments have values, and the callee ends in fewer steps. -/
theorem EvalBack.call {callee : Ident} (hl : Linked p program) (hp : TameProgram p)
    (hs : ArgsBack I p program es) : EvalBack I p program (.call callee es span) := by
  intro n k code pc σ τ callers w wf hcb ht hcode ha hn
  simp only [Expr.lower] at hcode
  obtain ⟨rs, w₁, τ₁, m₁, hes, _, hv, hle, hrun⟩ := hs.advance hl hp hcb ht.args hcode.left ha hn
  obtain ⟨t, m, hx, hm, hrun'⟩ := execute_of_run hcode.right.head hrun
  simp only [execute, Option.bind_eq_bind, Option.bind_eq_some_iff] at hx
  obtain ⟨vs, hread, s, hfind, hx⟩ := hx
  rw [mapM_eq_some_iff, hv] at hread
  subst hread
  split at hx
  · next hlen =>
      -- the call is executed, so what follows is shorter than the whole run
      cases hx
      obtain ⟨r, w₂, hc⟩ := hcb m (by omega) hfind hlen hrun'
      exact ⟨r, w₂, .call hes hc⟩
  · cases hx

/-- Each value to print is there, one after the other. -/
theorem PrintBack.cons (hl : Linked p program) (hp : TameProgram p) (h : EvalBack I p program e)
    (hs : PrintBack I p program es) : PrintBack I p program (e :: es) := by
  intro n k code pc σ τ callers w wf hcb ht hcode ha hn
  obtain ⟨hte, htes⟩ := List.forall_mem_cons.mp ht
  simp only [lowerPrints, List.append_assoc] at hcode
  obtain ⟨r, w₁, τ₁, m₁, he, hk₁, hv, hle₁, hrun₁⟩ := h.advance hl hp hcb hte hcode.left ha hn
  obtain ⟨t, m, hx, hm, hrun⟩ := execute_of_run hcode.right.head hrun₁
  -- something was printed, so the expression has a value
  simp only [execute, Option.bind_eq_bind, Option.bind_eq_some_iff] at hx
  obtain ⟨v, hread, hx⟩ := hx
  cases hx
  rw [hv] at hread
  subst hread
  have hcb' : ∀ i < m, CallBack I p program i := fun i hi => hcb i (by omega)
  obtain ⟨w₂, hes⟩ := hs m _ code _ σ τ₁ callers (w₁.print v) wf hcb' htes hcode.right.right
    (hk₁.agree ha) hrun
  exact ⟨w₂, .cons he hes⟩

mutual

/-- **Expressions**, by induction on the tree. -/
theorem evalBack (hl : Linked p program) (hp : TameProgram p) : ∀ e : Expr, EvalBack I p program e
  | .int _ _ => fun _ _ _ _ _ _ _ w _ _ _ _ _ _ => ⟨_, w, .int⟩
  | .bool _ _ => fun _ _ _ _ _ _ _ w _ _ _ _ _ _ => ⟨_, w, .bool⟩
  | .var _ _ => fun _ _ _ _ _ _ _ w _ _ _ _ _ _ => ⟨_, w, .var⟩
  | .paren inner _ => .paren (evalBack hl hp inner)
  | .not operand _ => .not hl hp (evalBack hl hp operand)
  | .binary _ left right _ => .binary hl hp (evalBack hl hp left) (evalBack hl hp right)
  | .call _ args _ => .call hl hp (argsBack hl hp args)

theorem argsBack (hl : Linked p program) (hp : TameProgram p) :
    ∀ es : List Expr, ArgsBack I p program es
  | [] => fun _ _ _ _ _ _ _ w _ _ _ _ _ _ => ⟨[], w, .nil⟩
  | e :: es => .cons hl hp (evalBack hl hp e) (argsBack hl hp es)

end

theorem printBack (hl : Linked p program) (hp : TameProgram p) (es : List Expr) :
    PrintBack I p program es := by
  induction es with
  | nil => exact fun _ _ _ _ _ _ _ w _ _ _ _ _ _ => ⟨w, .nil⟩
  | cons e es ih => exact .cons hl hp (evalBack hl hp e) ih

end Expressions

/-! ## Statements -/

section Statements

variable {cond value : Expr} {yes no body : Block} {span : Span}

/-- A machine that ends, at a test, finds a value that is true or false. -/
theorem test_of_run {n pc : Nat} {code : List Instr} {τ : Activation V} {callers : List (Caller V)}
    {w wf : World V} {c : Place} {l : Label}
    (hi : code[pc]? = some (.ifGoto c l) ∨ code[pc]? = some (.ifNotGoto c l))
    (hn : run I program n (.active ⟨code, pc, τ⟩ callers w) = some (.ended wf)) :
    ∃ v b, τ.read w c = some v ∧ I.truth v = some b := by
  rcases hi with hi | hi
  all_goals
    obtain ⟨t, _, hx, _, _⟩ := execute_of_run hi hn
    simp only [execute, branch, Option.bind_eq_bind, Option.bind_eq_some_iff] at hx
    obtain ⟨v, hv, b, hb, _⟩ := hx
    exact ⟨v, b, hv, hb⟩

/-- The machine gets past the code of the value, so there is one. -/
theorem ExecBack.assign {target : Ident} (hl : Linked p program) (hp : TameProgram p) :
    ExecBack I p program (.assign target value span) := by
  intro n loop supply supply' part code pc σ τ callers w wf hcb ht hlow hpl ha hn
  rw [lower_assign] at hlow
  cases hlow
  obtain ⟨r, w₁, τ₁, m, he, _, hv, _, hrun⟩ := (evalBack hl hp value).advance hl hp hcb
    (ht.exprs _ List.mem_cons_self) hpl.codeAt.left ha hn
  obtain ⟨t, _, hx, _, _⟩ := execute_of_run hpl.right.head hrun
  -- something was stored, so the expression has a value
  simp only [execute, Option.bind_eq_bind, Option.bind_eq_some_iff] at hx
  obtain ⟨v, hread, _⟩ := hx
  rw [hv] at hread
  subst hread
  exact ⟨_, _, _, .assign he⟩

theorem ExecBack.call {callee : Ident} {args : List Expr} (hl : Linked p program)
    (hp : TameProgram p) : ExecBack I p program (.call callee args span) := by
  intro n loop supply supply' part code pc σ τ callers w wf hcb ht hlow hpl ha hn
  rw [lower_call] at hlow
  cases hlow
  obtain ⟨r, w', he⟩ := evalBack hl hp (.call callee args span) n _ code pc σ τ callers w wf hcb
    (ht.exprs _ List.mem_cons_self) hpl.codeAt ha hn
  exact ⟨_, _, _, .call he⟩

theorem ExecBack.returnSome (hl : Linked p program) (hp : TameProgram p) :
    ExecBack I p program (.return (some value) span) := by
  intro n loop supply supply' part code pc σ τ callers w wf hcb ht hlow hpl ha hn
  rw [lower_return_some] at hlow
  cases hlow
  obtain ⟨r, w₁, τ₁, m, he, _, hv, _, hrun⟩ := (evalBack hl hp value).advance hl hp hcb
    (ht.exprs _ List.mem_cons_self) hpl.codeAt.left ha hn
  obtain ⟨t, _, hx, _, _⟩ := execute_of_run hpl.right.head hrun
  simp only [execute, Option.bind_eq_bind, Option.bind_eq_some_iff] at hx
  obtain ⟨v, hread, _⟩ := hx
  rw [hv] at hread
  subst hread
  exact ⟨_, _, _, .returnSome he⟩

theorem ExecBack.write {args : List Expr} (hl : Linked p program) (hp : TameProgram p) :
    ExecBack I p program (.write args span) := by
  intro n loop supply supply' part code pc σ τ callers w wf hcb ht hlow hpl ha hn
  rw [lower_write] at hlow
  cases hlow
  obtain ⟨w', hw⟩ := printBack hl hp args n _ code pc σ τ callers w wf hcb ht.exprs hpl.codeAt ha hn
  exact ⟨_, _, _, .write hw⟩

/-- The condition has a truth value; where it is true, the block comes to an end. -/
theorem ExecBack.ifThen (hl : Linked p program) (hp : TameProgram p)
    (hb : AllBack I p program yes.statements) : ExecBack I p program (.ifThen cond yes span) := by
  intro n loop supply supply' part code pc σ τ callers w wf hcb ht hlow hpl ha hn
  obtain ⟨inner, hinner, rfl⟩ := lower_ifThen_eq_ok hlow
  rw [lower_block] at hinner
  have htb := ht.block (b := yes) (by simp [Stmt.exprs]) (by simp [Stmt.targets])
  obtain ⟨r, w₁, τ₁, m₁, he, hk, hv, hle, hrun⟩ := (evalBack hl hp cond).advance hl hp hcb
    (ht.exprs _ List.mem_cons_self) hpl.codeAt.left ha hn
  obtain ⟨v, b, hread, htruth⟩ := test_of_run (.inr hpl.right.head) hrun
  have hr : r = some v := hv.symm.trans hread
  subst hr
  cases b with
  | false => exact ⟨_, _, _, .ifThenFalse he htruth⟩
  | true =>
      obtain ⟨m₂, hle₂, hrun₂⟩ := run_of_reaches
        (reaches_ifNotGoto_next hread hpl.right.head htruth) hrun
      obtain ⟨exit, σ', w₂, hall⟩ := hb m₂ loop _ _ inner code _ σ τ₁ callers w₁ wf
        (fun i hi => hcb i (by omega)) htb hinner hpl.right.tail.left (hk.agree ha) hrun₂
      exact ⟨_, _, _, .ifThenTrue he htruth hall⟩

/-- The condition has a truth value, and the block that it chooses comes to an end. -/
theorem ExecBack.ifElse (hl : Linked p program) (hp : TameProgram p)
    (hb : AllBack I p program yes.statements) (hb' : AllBack I p program no.statements) :
    ExecBack I p program (.ifElse cond yes no span) := by
  intro n loop supply supply' part code pc σ τ callers w wf hcb ht hlow hpl ha hn
  obtain ⟨first, supply₁, second, hlow₁, hlow₂, rfl⟩ := lower_ifElse_eq_ok hlow
  rw [lower_block] at hlow₁ hlow₂
  obtain ⟨r, w₁, τ₁, m₁, he, hk, hv, hle, hrun⟩ := (evalBack hl hp cond).advance hl hp hcb
    (ht.exprs _ List.mem_cons_self) hpl.codeAt.left ha hn
  obtain ⟨v, b, hread, htruth⟩ := test_of_run (.inl hpl.right.head) hrun
  have hr : r = some v := hv.symm.trans hread
  subst hr
  -- where the two blocks stand, each behind its label
  have hthen := hpl.right.tail.tail
  have helse := hthen.tail.right.tail
  cases b with
  | true =>
      have htb := ht.block (b := yes) (by simp [Stmt.exprs]) (by simp [Stmt.targets])
      obtain ⟨m₂, hle₂, hrun₂⟩ := run_of_reaches
        ((reaches_ifGoto_jump hread hpl.right.head htruth hthen.labelIndex?).trans
          (reaches_label hthen.head)) hrun
      obtain ⟨exit, σ', w₂, hall⟩ := hb m₂ loop _ _ first code _ σ τ₁ callers w₁ wf
        (fun i hi => hcb i (by omega)) htb hlow₁ hthen.tail.left (hk.agree ha) hrun₂
      exact ⟨_, _, _, .ifElseTrue he htruth hall⟩
  | false =>
      have htb := ht.block (b := no) (by simp [Stmt.exprs]) (by simp [Stmt.targets])
      obtain ⟨m₂, hle₂, hrun₂⟩ := run_of_reaches
        ((reaches_ifGoto_next hread hpl.right.head htruth).trans
          ((reaches_goto hpl.right.tail.head helse.labelIndex?).trans (reaches_label helse.head)))
        hrun
      obtain ⟨exit, σ', w₂, hall⟩ := hb' m₂ loop _ _ second code _ σ τ₁ callers w₁ wf
        (fun i hi => hcb i (by omega)) htb hlow₂ helse.tail.left (hk.agree ha) hrun₂
      exact ⟨_, _, _, .ifElseFalse he htruth hall⟩

/-- **Loops.** The induction is on the number of steps that are left. A round starts with a label, so
    less is left when the machine is back at the start. -/
theorem ExecBack.while (hl : Linked p program) (hp : TameProgram p)
    (hb : AllBack I p program body.statements) : ExecBack I p program (.while cond body span) := by
  intro n loop supply supply' part code pc σ τ callers w wf hcb ht hlow hpl ha hn
  obtain ⟨inner, hinner, rfl⟩ := lower_while_eq_ok hlow
  rw [lower_block] at hinner
  have hlp := hpl.loop
  have htc : Tame cond := ht.exprs _ List.mem_cons_self
  have htb := ht.block (b := body) (by simp [Stmt.exprs]) (by simp [Stmt.targets])
  induction n using Nat.strongRecOn generalizing σ τ w with
  | ind n ih =>
      -- the label takes one step, so less than `n` is left from here on
      obtain ⟨t, m, hx, hm, hrun⟩ := execute_of_run hlp.start hn
      cases hx
      obtain ⟨r, w₁, τ₁, m₁, he, hk, hv, hle₁, hrun₁⟩ := (evalBack hl hp cond).advance hl hp
        (fun i hi => hcb i (by omega)) htc hlp.cond ha hrun
      obtain ⟨v, b, hread, htruth⟩ := test_of_run (.inr hlp.test) hrun₁
      have hr : r = some v := hv.symm.trans hread
      subst hr
      cases b with
      | false => exact ⟨_, _, _, .whileDone he htruth⟩
      | true =>
          have ha₁ := hk.agree ha
          obtain ⟨m₂, hle₂, hrun₂⟩ := run_of_reaches
            (reaches_ifNotGoto_next hread hlp.test htruth) hrun₁
          obtain ⟨exit, σ₂, w₂, hall⟩ := hb m₂ _ _ _ inner code _ σ τ₁ callers w₁ wf
            (fun i hi => hcb i (by omega)) htb hinner hlp.body ha₁ hrun₂
          by_cases hrep : exit.repeats = true
          · -- back at the start, where the induction hypothesis takes over
            obtain ⟨τ₂, t₂, ha₂, hland, hreach⟩ := forward_all hl hp hall _ _ _ inner code _ τ₁
              callers htb hinner hlp.body ha₁
            obtain ⟨m₃, hle₃, hrun₃⟩ := run_of_reaches
              (hreach.trans (hlp.reaches_start hrep hland)) hrun₂
            obtain ⟨exit', σ₃, w₃, hnext⟩ := ih m₃ (by omega) σ₂ τ₂ w₂
              (fun i hi => hcb i (by omega)) ha₂ hrun₃
            exact ⟨_, _, _, .whileNext he htruth hall hrep hnext⟩
          · cases exit with
            | normal => exact absurd rfl hrep
            | «continue» => exact absurd rfl hrep
            | «break» => exact ⟨_, _, _, .whileBreak he htruth hall⟩
            | «return» r => exact ⟨_, _, _, .whileReturn he htruth hall⟩

/-- The first statement comes to an end; if in the normal way, so do those behind it. -/
theorem AllBack.cons {s : Stmt} {more : List Stmt} (hl : Linked p program) (hp : TameProgram p)
    (h : ExecBack I p program s) (hs : AllBack I p program more) :
    AllBack I p program (s :: more) := by
  intro n loop supply supply' part code pc σ τ callers w wf hcb ht hlow hpl ha hn
  obtain ⟨first, supply₁, rest, hlow₁, hlow₂, rfl⟩ := lowerAll_cons_eq_ok hlow
  have hts : TameCode s.exprs s.targets := ht.mono (by simp [exprsOf]) (by simp [targetsOf])
  have htm : TameCode (exprsOf more) (targetsOf more) :=
    ht.mono (by simp [exprsOf]) (by simp [targetsOf])
  obtain ⟨exit, σ₁, w₁, hexec⟩ := h n loop _ _ first code pc σ τ callers w wf hcb hts hlow₁ hpl.left
    ha hn
  by_cases hne : exit = .normal
  -- only behind a normal end do the other statements matter
  · subst hne
    obtain ⟨τ₁, t, ha₁, hland, hreach⟩ := forward_exec hl hp hexec loop _ _ first code pc τ callers
      hts hlow₁ hpl.left ha
    cases hland
    obtain ⟨m, hle, hrun⟩ := run_of_reaches hreach hn
    obtain ⟨exit, σ₂, w₂, hall⟩ := hs m loop _ _ rest code _ σ₁ τ₁ callers w₁ wf
      (fun i hi => hcb i (by omega)) htm hlow₂ hpl.right ha₁ hrun
    exact ⟨_, _, _, .next hexec hall⟩
  · exact ⟨_, _, _, .stop hexec hne⟩

mutual

theorem execBack (hl : Linked p program) (hp : TameProgram p) : ∀ s : Stmt, ExecBack I p program s
  | .assign _ _ _ => .assign hl hp
  | .call _ _ _ => .call hl hp
  | .return none _ => fun _ _ _ _ _ _ _ _ _ _ _ _ _ _ _ _ _ _ => ⟨_, _, _, .returnNone⟩
  | .return (some _) _ => .returnSome hl hp
  | .ifThen _ yes _ => .ifThen hl hp (blockBack hl hp yes)
  | .ifElse _ yes no _ => .ifElse hl hp (blockBack hl hp yes) (blockBack hl hp no)
  | .while _ body _ => .while hl hp (blockBack hl hp body)
  | .break _ => fun _ _ _ _ _ _ _ _ _ _ _ _ _ _ _ _ _ _ => ⟨_, _, _, .break⟩
  | .continue _ => fun _ _ _ _ _ _ _ _ _ _ _ _ _ _ _ _ _ _ => ⟨_, _, _, .continue⟩
  | .write _ _ => .write hl hp

theorem blockBack (hl : Linked p program) (hp : TameProgram p) :
    ∀ b : Block, AllBack I p program b.statements
  | ⟨statements, _⟩ => allBack hl hp statements

theorem allBack (hl : Linked p program) (hp : TameProgram p) :
    ∀ ss : List Stmt, AllBack I p program ss
  | [] => fun _ _ _ _ _ _ _ _ _ _ _ _ _ _ _ _ _ _ => ⟨_, _, _, .nil⟩
  | s :: more => .cons hl hp (execBack hl hp s) (allBack hl hp more)

end

end Statements

/-! ## Whole runs -/

/-- A section after which the machine ends: its block comes to an end, and not by a stray jump. -/
theorem Compiled.exec_of_run {b : Block} {s : Section} {vs : List V} {n : Nat} {w wf : World V}
    {callers : List (Caller V)} (hl : Linked p program) (hp : TameProgram p) (hb : b ∈ p.bodies)
    (h : Compiled b s) (hcb : ∀ m < n, CallBack I p program m)
    (hn : run I program n (.active (.enter s vs) callers w) = some (.ended wf)) :
    ∃ exit r σ' w', ExecAll I p (.ofArgs s.params vs) w b.statements exit σ' w' ∧
      exit.result? = some r := by
  have ht := hp.body hb
  obtain ⟨body, supply, supply', kind, name, hlow, hpl, _⟩ := h.placed
  obtain ⟨exit, σ', w', hall⟩ := allBack hl hp b.statements n none _ _ body s.code 0 _ _ callers w wf
    hcb ht hlow hpl .enter hn
  obtain ⟨τ', t, _, hland, _⟩ := forward_all hl hp hall none _ _ body s.code 0 _ callers ht hlow hpl
    .enter
  -- there is no loop around a body, so a jump would have nowhere to land
  cases exit with
  | normal => exact ⟨_, _, σ', w', hall, rfl⟩
  | «return» r => exact ⟨_, _, σ', w', hall, rfl⟩
  | «break» => cases hland
  | «continue» => cases hland

/-- **Calls.** Every call after which the machine ends is a call of the tree, by induction on the number
    of steps to the end. -/
theorem callBack (hl : Linked p program) (hp : TameProgram p) (n : Nat) :
    CallBack I p program n := by
  induction n using Nat.strongRecOn with
  | ind n ih =>
      intro w wf f vs s callers hfind hlen hn
      -- the section that was found is the one of the routine of that name
      cases hf : p.routine? f with
      | none => rw [hl.missing hf] at hfind; cases hfind
      | some routine =>
          obtain ⟨s', hfind', hparams, hcomp⟩ := hl.routine hf
          rw [hfind'] at hfind
          cases hfind
          have hmem := body_mem_bodies (mem_routines_of_routine? hf)
          obtain ⟨exit, r, σ', w', hall, hr⟩ := hcomp.exec_of_run hl hp hmem ih hn
          rw [hparams] at hall hlen
          exact ⟨r, w', .intro hf hlen hall hr⟩

/-- What the code of a program does, its tree does too. -/
theorem runs_of_ends {g g' : Env V} {out : List V} (hl : Linked p program) (hp : TameProgram p)
    (h : Ends I program g out g') : p.Runs I g out g' := by
  obtain ⟨s, n, hfind, hn⟩ := h
  obtain ⟨s', hfind', hparams, hcomp⟩ := hl.main
  rw [hfind'] at hfind
  cases hfind
  have hmain := main_mem_bodies p
  obtain ⟨exit, r, σ', w', hall, hr⟩ := hcomp.exec_of_run hl hp hmain
    (fun m _ => callBack hl hp m) hn
  -- the machine is deterministic: where the tree ends is where the machine has ended
  have hreach := hcomp.reaches_leave (hp.body hmain) (forward_all hl hp hall) hr []
  obtain ⟨m, _, hrun⟩ := run_of_reaches hreach hn
  obtain ⟨_, hw⟩ := run_ended hrun
  cases hw
  rw [hparams] at hall
  exact ⟨exit, r, σ', hall, hr⟩

end Machine
end TinyPascal
