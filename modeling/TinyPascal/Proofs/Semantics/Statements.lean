import TinyPascal.Proofs.Semantics.Expressions

/-!
# `Proofs.Semantics.Statements` — the code of statements goes where they go

A statement ends normally or by a jump. `landing` says where the machine stands afterwards: behind the
code, at a label of the loop around it, or in the frame of the caller. `ExecSim` and `AllSim` say that
the code takes it there, and for each rule there is a lemma about them.

## Contents
- **Landings.** `landing`, `landing_extend`, and the jumps that the code of statements is made of.
- **Rules.** `ExecSim.assign`, `ExecSim.whileNext` and the others.
-/

namespace TinyPascal
namespace Machine

variable {V : Type} {I : Meaning V} {program : List Instr}

/-! ## Landings -/

/-- Where the machine stands after a statement: `f` is the frame behind the code of the statement. -/
def landing (loop : Option Loop) (f : Frame V) (callers : List (Caller V)) (w : World V) :
    Exit V → Option (State V)
  | .normal => some (.active f callers w)
  | .break => do
    let l ← loop
    return .active (← f.jump? l.stop) callers w
  | .continue => do
    let l ← loop
    return .active (← f.jump? l.start) callers w
  | .return r => some (.leave r w callers)

/-- The code of a statement stands in a section, together with the labels of the loop around it. -/
structure Placed (code : List Instr) (pc : Nat) (part : List Instr) (loop : Option Loop) : Prop where
  codeAt : CodeAt code pc part
  nodup : (labelNumbers code).Nodup
  labels : ∀ l ∈ loop, ∃ a b, labelIndex? code l.start = some a ∧ labelIndex? code l.stop = some b

/-- The code of `s` takes the machine where `s` goes. -/
def ExecSim (I : Meaning V) (program : List Instr) (σ : Activation V) (w : World V) (s : Stmt)
    (exit : Exit V) (σ' : Activation V) (w' : World V) : Prop :=
  ∀ (loop : Option Loop) (supply supply' : Supply) (body code : List Instr) (pc : Nat)
    (τ : Activation V) (callers : List (Caller V)), TameCode s.exprs s.targets →
    s.lower loop supply = .ok body supply' → Placed code pc body loop → Agree σ τ →
    ∃ τ' t, Agree σ' τ' ∧ landing loop ⟨code, pc + body.length, τ'⟩ callers w' exit = some t
      ∧ Reaches I program (.active ⟨code, pc, τ⟩ callers w) t

/-- The code of statements in a row takes the machine where they go. -/
def AllSim (I : Meaning V) (program : List Instr) (σ : Activation V) (w : World V) (ss : List Stmt)
    (exit : Exit V) (σ' : Activation V) (w' : World V) : Prop :=
  ∀ (loop : Option Loop) (supply supply' : Supply) (body code : List Instr) (pc : Nat)
    (τ : Activation V) (callers : List (Caller V)), TameCode (exprsOf ss) (targetsOf ss) →
    lowerAll loop ss supply = .ok body supply' → Placed code pc body loop → Agree σ τ →
    ∃ τ' t, Agree σ' τ' ∧ landing loop ⟨code, pc + body.length, τ'⟩ callers w' exit = some t
      ∧ Reaches I program (.active ⟨code, pc, τ⟩ callers w) t

namespace Placed

variable {code a b : List Instr} {i : Instr} {pc : Nat} {loop : Option Loop}

theorem left (h : Placed code pc (a ++ b) loop) : Placed code pc a loop :=
  ⟨h.codeAt.left, h.nodup, h.labels⟩

theorem right (h : Placed code pc (a ++ b) loop) : Placed code (pc + a.length) b loop :=
  ⟨h.codeAt.right, h.nodup, h.labels⟩

theorem tail (h : Placed code pc (i :: a) loop) : Placed code (pc + 1) a loop :=
  ⟨h.codeAt.tail, h.nodup, h.labels⟩

theorem head (h : Placed code pc (i :: a) loop) : code[pc]? = some i :=
  h.codeAt.head

theorem labelIndex? {l : Label} (h : Placed code pc (.label l :: a) loop) :
    labelIndex? code l = some pc :=
  labelIndex?_of_codeAt h.nodup h.codeAt

end Placed

section Landings

variable {loop : Option Loop} {code : List Instr} {pc pc' : Nat} {τ : Activation V}
  {callers : List (Caller V)} {w : World V} {exit : Exit V} {t : State V}

/-- Code behind a statement is reached only if the statement ends normally. -/
theorem landing_extend (h : landing loop ⟨code, pc, τ⟩ callers w exit = some t)
    (hgo : Reaches I program (.active ⟨code, pc, τ⟩ callers w) (.active ⟨code, pc', τ⟩ callers w)) :
    ∃ t', landing loop ⟨code, pc', τ⟩ callers w exit = some t' ∧ Reaches I program t t' := by
  cases exit with
  | normal => cases h; exact ⟨_, rfl, hgo⟩
  | «break» => exact ⟨t, h, .refl⟩
  | «continue» => exact ⟨t, h, .refl⟩
  | «return» r => exact ⟨t, h, .refl⟩

theorem landing_of_ne_normal (hne : exit ≠ .normal) :
    landing loop ⟨code, pc, τ⟩ callers w exit = landing loop ⟨code, pc', τ⟩ callers w exit := by
  cases exit with
  | normal => exact absurd rfl hne
  | «break» => rfl
  | «continue» => rfl
  | «return» r => rfl

theorem reaches_label {l : Label} (h : code[pc]? = some (.label l)) :
    Reaches I program (.active ⟨code, pc, τ⟩ callers w) (.active ⟨code, pc + 1, τ⟩ callers w) :=
  .single (by rw [step_active h]; rfl)

/-- The machine jumps to where the label stands. -/
theorem reaches_goto {l : Label} (h : code[pc]? = some (.goto l))
    (hl : labelIndex? code l = some pc') :
    Reaches I program (.active ⟨code, pc, τ⟩ callers w) (.active ⟨code, pc', τ⟩ callers w) :=
  .single (by rw [step_active h]; simp [execute, Frame.jump?, hl])

section Tests

variable {cond : Place} {v : V} {l : Label} (hv : τ.read w cond = some v)

include hv

/-- A jump on a true condition is passed where it is false. -/
theorem reaches_ifGoto_next (h : code[pc]? = some (.ifGoto cond l)) (ht : I.truth v = some false) :
    Reaches I program (.active ⟨code, pc, τ⟩ callers w) (.active ⟨code, pc + 1, τ⟩ callers w) :=
  .single (by rw [step_active h]; simp [execute, branch, hv, ht, Frame.next])

/-- A jump on a true condition is taken where it is true. -/
theorem reaches_ifGoto_jump (h : code[pc]? = some (.ifGoto cond l)) (ht : I.truth v = some true)
    (hl : labelIndex? code l = some pc') :
    Reaches I program (.active ⟨code, pc, τ⟩ callers w) (.active ⟨code, pc', τ⟩ callers w) :=
  .single (by rw [step_active h]; simp [execute, branch, hv, ht, Frame.jump?, hl])

/-- A jump on a false condition is passed where it is true. -/
theorem reaches_ifNotGoto_next (h : code[pc]? = some (.ifNotGoto cond l))
    (ht : I.truth v = some true) :
    Reaches I program (.active ⟨code, pc, τ⟩ callers w) (.active ⟨code, pc + 1, τ⟩ callers w) :=
  .single (by rw [step_active h]; simp [execute, branch, hv, ht, Frame.next])

/-- A jump on a false condition is taken where it is false. -/
theorem reaches_ifNotGoto_jump (h : code[pc]? = some (.ifNotGoto cond l))
    (ht : I.truth v = some false) (hl : labelIndex? code l = some pc') :
    Reaches I program (.active ⟨code, pc, τ⟩ callers w) (.active ⟨code, pc', τ⟩ callers w) :=
  .single (by rw [step_active h]; simp [execute, branch, hv, ht, Frame.jump?, hl])

end Tests

/-- Where the machine lands, with the place written in another way. -/
theorem landing_cast (h : landing loop ⟨code, pc, τ⟩ callers w exit = some t) (hpc : pc' = pc) :
    landing loop ⟨code, pc', τ⟩ callers w exit = some t :=
  hpc ▸ h

end Landings

/-! ## Statements without blocks -/

section Rules

variable {σ σ' σ₁ σ₂ : Activation V} {w w₁ w₂ w₃ : World V} {exit exit' : Exit V} {span : Span}
  {cond value : Expr} {yes no body : Block} {v : V} {r : Option V}

/-- The code of the value leaves it in a place, and an assignment copies it from there. -/
theorem ExecSim.assign {target : Ident} (h : EvalSim I program σ w value (some v) w₁) :
    ExecSim I program σ w (.assign target value span) .normal (σ.set target.name (some v))
      (w₁.set σ target.name (some v)) := by
  intro loop supply supply' part code pc τ callers ht hlow hpl ha
  have htv : Tame value := ht.exprs value List.mem_cons_self
  have htt : isTempName target.name = false := ht.targets _ List.mem_cons_self
  rw [lower_assign] at hlow
  cases hlow
  obtain ⟨τ₁, hr₁, hk₁, hv₁⟩ := h _ code pc τ callers htv hpl.codeAt.left ha
  have ha₁ := hk₁.agree ha
  refine ⟨τ₁.set target.name (some v), _, ha₁.set htt, rfl, ?_⟩
  rw [List.length_append, ← Nat.add_assoc]
  refine hr₁.trans (.single ?_)
  rw [step_active hpl.right.head]
  simp [execute, hv₁, State.set, Frame.set, ha₁.world_set htt]

/-- The result of a call statement stays in a temporary that nothing reads. -/
theorem ExecSim.call {callee : Ident} {args : List Expr}
    (h : EvalSim I program σ w (.call callee args span) r w₁) :
    ExecSim I program σ w (.call callee args span) .normal σ w₁ := by
  intro loop supply supply' part code pc τ callers ht hlow hpl ha
  rw [lower_call] at hlow
  cases hlow
  obtain ⟨τ₁, hr₁, hk₁, _⟩ := h _ code pc τ callers (ht.exprs _ List.mem_cons_self) hpl.codeAt ha
  exact ⟨τ₁, _, hk₁.agree ha, rfl, hr₁⟩

theorem ExecSim.returnNone : ExecSim I program σ w (.return none span) (.return none) σ w := by
  intro loop supply supply' part code pc τ callers _ hlow hpl ha
  rw [lower_return_none] at hlow
  cases hlow
  refine ⟨τ, _, ha, rfl, .single ?_⟩
  rw [step_active hpl.head]
  rfl

/-- A `return` with a value leaves the frame with it. -/
theorem ExecSim.returnSome (h : EvalSim I program σ w value (some v) w₁) :
    ExecSim I program σ w (.return (some value) span) (.return (some v)) σ w₁ := by
  intro loop supply supply' part code pc τ callers ht hlow hpl ha
  rw [lower_return_some] at hlow
  cases hlow
  obtain ⟨τ₁, hr₁, hk₁, hv₁⟩ := h _ code pc τ callers (ht.exprs _ List.mem_cons_self)
    hpl.codeAt.left ha
  refine ⟨τ₁, _, hk₁.agree ha, rfl, hr₁.trans (.single ?_)⟩
  rw [step_active hpl.right.head]
  simp [execute, hv₁]

theorem ExecSim.write {args : List Expr} (h : PrintSim I program σ w args w₁) :
    ExecSim I program σ w (.write args span) .normal σ w₁ := by
  intro loop supply supply' part code pc τ callers ht hlow hpl ha
  rw [lower_write] at hlow
  cases hlow
  obtain ⟨τ₁, hr₁, ha₁⟩ := h _ code pc τ callers ht.exprs hpl.codeAt ha
  exact ⟨τ₁, _, ha₁, rfl, hr₁⟩

theorem ExecSim.break : ExecSim I program σ w (.break span) .break σ w := by
  intro loop supply supply' part code pc τ callers _ hlow hpl ha
  cases loop with
  | none => rw [lower_break_stray] at hlow; cases hlow
  | some l =>
      rw [lower_break] at hlow
      cases hlow
      obtain ⟨_, b, _, hb⟩ := hpl.labels l rfl
      refine ⟨τ, .active ⟨code, b, τ⟩ callers w, ha, ?_, reaches_goto hpl.head hb⟩
      simp [landing, Frame.jump?, hb]

theorem ExecSim.continue : ExecSim I program σ w (.continue span) .continue σ w := by
  intro loop supply supply' part code pc τ callers _ hlow hpl ha
  cases loop with
  | none => rw [lower_continue_stray] at hlow; cases hlow
  | some l =>
      rw [lower_continue] at hlow
      cases hlow
      obtain ⟨a, _, hstart, _⟩ := hpl.labels l rfl
      refine ⟨τ, .active ⟨code, a, τ⟩ callers w, ha, ?_, reaches_goto hpl.head hstart⟩
      simp [landing, Frame.jump?, hstart]

/-! ## Sequences -/

theorem AllSim.nil : AllSim I program σ w [] .normal σ w := by
  intro loop supply supply' part code pc τ callers _ hlow _ ha
  cases hlow
  exact ⟨τ, _, ha, rfl, .refl⟩

/-- Where a statement ends in the normal way, its code ends in front of the code of the next one. -/
theorem AllSim.next {s : Stmt} {more : List Stmt} (h : ExecSim I program σ w s .normal σ₁ w₁)
    (hs : AllSim I program σ₁ w₁ more exit σ₂ w₂) :
    AllSim I program σ w (s :: more) exit σ₂ w₂ := by
  intro loop supply supply' part code pc τ callers ht hlow hpl ha
  obtain ⟨a, supply₁, b, hlow₁, hlow₂, rfl⟩ := lowerAll_cons_eq_ok hlow
  have hts : TameCode s.exprs s.targets := ht.mono (by simp [exprsOf]) (by simp [targetsOf])
  have htm : TameCode (exprsOf more) (targetsOf more) :=
    ht.mono (by simp [exprsOf]) (by simp [targetsOf])
  obtain ⟨τ₁, t₁, ha₁, hland, hr₁⟩ := h loop _ _ a code pc τ callers hts hlow₁ hpl.left ha
  cases hland
  obtain ⟨τ₂, t₂, ha₂, hland₂, hr₂⟩ := hs loop _ _ b code _ τ₁ callers htm hlow₂ hpl.right ha₁
  refine ⟨τ₂, t₂, ha₂, ?_, hr₁.trans hr₂⟩
  rw [List.length_append, ← Nat.add_assoc]
  exact hland₂

theorem AllSim.stop {s : Stmt} {more : List Stmt} (h : ExecSim I program σ w s exit σ₁ w₁)
    (hne : exit ≠ .normal) : AllSim I program σ w (s :: more) exit σ₁ w₁ := by
  intro loop supply supply' part code pc τ callers ht hlow hpl ha
  obtain ⟨a, supply₁, b, hlow₁, _, rfl⟩ := lowerAll_cons_eq_ok hlow
  have hts : TameCode s.exprs s.targets := ht.mono (by simp [exprsOf]) (by simp [targetsOf])
  obtain ⟨τ₁, t₁, ha₁, hland, hr₁⟩ := h loop _ _ a code pc τ callers hts hlow₁ hpl.left ha
  -- a jump does not depend on how much code stands behind
  exact ⟨τ₁, t₁, ha₁, (landing_of_ne_normal hne).trans hland, hr₁⟩

/-! ## Statements with blocks -/

/-- A block inside a statement is tame. -/
theorem TameCode.block {es : List Expr} {xs : List String} {b : Block} (h : TameCode es xs)
    (he : b.exprs ⊆ es) (hx : b.targets ⊆ xs) :
    TameCode (exprsOf b.statements) (targetsOf b.statements) := by
  rw [← exprs_block, ← targets_block]
  exact h.mono he hx

/-- The jump over the block is passed. -/
theorem ExecSim.ifThenTrue (hc : EvalSim I program σ w cond (some v) w₁)
    (hv : I.truth v = some true) (hb : AllSim I program σ w₁ yes.statements exit σ' w₂) :
    ExecSim I program σ w (.ifThen cond yes span) exit σ' w₂ := by
  intro loop supply supply' part code pc τ callers ht hlow hpl ha
  obtain ⟨body, hinner, rfl⟩ := lower_ifThen_eq_ok hlow
  rw [lower_block] at hinner
  rw [Layout.length_ifThen]
  have htb := ht.block (b := yes) (by simp [Stmt.exprs]) (by simp [Stmt.targets])
  obtain ⟨τ₁, hr₁, hk₁, hv₁⟩ := hc _ code pc τ callers (ht.exprs _ List.mem_cons_self)
    hpl.codeAt.left ha
  have htest : Reaches I program (.active ⟨code, _, τ₁⟩ callers w₁) _ :=
    reaches_ifNotGoto_next hv₁ hpl.right.head hv
  obtain ⟨τ₂, t, ha₂, hland, hr₂⟩ := hb loop _ _ body code _ τ₁ callers htb hinner
    hpl.right.tail.left (hk₁.agree ha)
  -- behind the block stands the label that the test would have jumped to
  obtain ⟨t', hland', hr₃⟩ := landing_extend hland (reaches_label hpl.right.tail.right.head)
  exact ⟨τ₂, t', ha₂, landing_cast hland' (by omega), ((hr₁.trans htest).trans hr₂).trans hr₃⟩

/-- The jump over the block is taken. -/
theorem ExecSim.ifThenFalse (hc : EvalSim I program σ w cond (some v) w₁)
    (hv : I.truth v = some false) : ExecSim I program σ w (.ifThen cond yes span) .normal σ w₁ := by
  intro loop supply supply' part code pc τ callers ht hlow hpl ha
  obtain ⟨body, _, rfl⟩ := lower_ifThen_eq_ok hlow
  rw [Layout.length_ifThen]
  obtain ⟨τ₁, hr₁, hk₁, hv₁⟩ := hc _ code pc τ callers (ht.exprs _ List.mem_cons_self)
    hpl.codeAt.left ha
  have hend := hpl.right.tail.right
  have htest : Reaches I program (.active ⟨code, _, τ₁⟩ callers w₁) _ :=
    reaches_ifNotGoto_jump hv₁ hpl.right.head hv hend.labelIndex?
  exact ⟨τ₁, _, hk₁.agree ha, landing_cast rfl (by omega),
    (hr₁.trans htest).trans (reaches_label hend.head)⟩

/-- The first block is entered through its label, and left by a jump over the second one. -/
theorem ExecSim.ifElseTrue (hc : EvalSim I program σ w cond (some v) w₁)
    (hv : I.truth v = some true) (hb : AllSim I program σ w₁ yes.statements exit σ' w₂) :
    ExecSim I program σ w (.ifElse cond yes no span) exit σ' w₂ := by
  intro loop supply supply' part code pc τ callers ht hlow hpl ha
  obtain ⟨a, supply₁, b, hinner, _, rfl⟩ := lower_ifElse_eq_ok hlow
  rw [lower_block] at hinner
  rw [Layout.length_ifElse]
  have htb := ht.block (b := yes) (by simp [Stmt.exprs]) (by simp [Stmt.targets])
  obtain ⟨τ₁, hr₁, hk₁, hv₁⟩ := hc _ code pc τ callers (ht.exprs _ List.mem_cons_self)
    hpl.codeAt.left ha
  have hthen := hpl.right.tail.tail
  have htest : Reaches I program (.active ⟨code, _, τ₁⟩ callers w₁) _ :=
    reaches_ifGoto_jump hv₁ hpl.right.head hv hthen.labelIndex?
  obtain ⟨τ₂, t, ha₂, hland, hr₂⟩ := hb loop _ _ a code _ τ₁ callers htb hinner hthen.tail.left
    (hk₁.agree ha)
  -- behind the first block, over the second one to the end
  have hskip := hthen.tail.right
  have hend := hskip.tail.tail.right
  obtain ⟨t', hland', hr₃⟩ := landing_extend hland
    ((reaches_goto hskip.head hend.labelIndex?).trans (reaches_label hend.head))
  exact ⟨τ₂, t', ha₂, landing_cast hland' (by omega),
    ((hr₁.trans (htest.trans (reaches_label hthen.head))).trans hr₂).trans hr₃⟩

/-- The second block is entered through its label, and ends in front of the last one. -/
theorem ExecSim.ifElseFalse (hc : EvalSim I program σ w cond (some v) w₁)
    (hv : I.truth v = some false) (hb : AllSim I program σ w₁ no.statements exit σ' w₂) :
    ExecSim I program σ w (.ifElse cond yes no span) exit σ' w₂ := by
  intro loop supply supply' part code pc τ callers ht hlow hpl ha
  obtain ⟨a, supply₁, b, _, hinner, rfl⟩ := lower_ifElse_eq_ok hlow
  rw [lower_block] at hinner
  rw [Layout.length_ifElse]
  have htb := ht.block (b := no) (by simp [Stmt.exprs]) (by simp [Stmt.targets])
  obtain ⟨τ₁, hr₁, hk₁, hv₁⟩ := hc _ code pc τ callers (ht.exprs _ List.mem_cons_self)
    hpl.codeAt.left ha
  have helse := hpl.right.tail.tail.tail.right.tail
  -- the test falls through to a jump over the first block
  have htest : Reaches I program (.active ⟨code, _, τ₁⟩ callers w₁) _ :=
    (reaches_ifGoto_next hv₁ hpl.right.head hv).trans
      (reaches_goto hpl.right.tail.head helse.labelIndex?)
  obtain ⟨τ₂, t, ha₂, hland, hr₂⟩ := hb loop _ _ b code _ τ₁ callers htb hinner helse.tail.left
    (hk₁.agree ha)
  obtain ⟨t', hland', hr₃⟩ := landing_extend hland (reaches_label helse.tail.right.head)
  exact ⟨τ₂, t', ha₂, landing_cast hland' (by omega),
    ((hr₁.trans (htest.trans (reaches_label helse.head))).trans hr₂).trans hr₃⟩

/-! ## Loops -/

/-- The parts of a loop, where they stand: the test, the body, the jump back and the end. The body is
    placed inside the loop. -/
structure LoopPlaced (code : List Instr) (pc : Nat) (c : Lowered Place) (l : Loop)
    (part : List Instr) : Prop where
  start : code[pc]? = some (.label l.start)
  startIndex : labelIndex? code l.start = some pc
  cond : CodeAt code (pc + 1) c.code
  test : code[pc + 1 + c.code.length]? = some (.ifNotGoto c.result l.stop)
  body : Placed code (pc + 1 + c.code.length + 1) part (some l)
  back : code[pc + 1 + c.code.length + 1 + part.length]? = some (.goto l.start)
  stop : code[pc + 1 + c.code.length + 1 + part.length + 1]? = some (.label l.stop)
  stopIndex : labelIndex? code l.stop = some (pc + 1 + c.code.length + 1 + part.length + 1)

/-- The labels of a loop that is in place are found at its start and behind it. -/
theorem Placed.loop {code part : List Instr} {pc : Nat} {c : Lowered Place} {l : Loop}
    {loop : Option Loop} (h : Placed code pc (Layout.loop c l part) loop) :
    LoopPlaced code pc c l part := by
  have hbody := h.tail.right.tail
  have hend := hbody.right.tail
  refine ⟨h.head, h.labelIndex?, h.tail.codeAt.left, h.tail.right.head,
    ⟨hbody.codeAt.left, h.nodup, ?_⟩, hbody.right.head, hend.head, hend.labelIndex?⟩
  intro l' hl'
  cases hl'
  exact ⟨_, _, h.labelIndex?, hend.labelIndex?⟩

/-- The head of a loop, behind the label: from the condition to the test. -/
theorem LoopPlaced.reaches_test {code part : List Instr} {pc k : Nat} {l : Loop} {τ : Activation V}
    {callers : List (Caller V)} (h : LoopPlaced code pc (cond.lower k) l part)
    (hc : EvalSim I program σ w cond (some v) w₁) (ht : Tame cond) (ha : Agree σ τ) :
    ∃ τ₁, Agree σ τ₁ ∧ τ₁.read w₁ (cond.lower k).result = some v ∧
      Reaches I program (.active ⟨code, pc + 1, τ⟩ callers w)
        (.active ⟨code, pc + 1 + (cond.lower k).code.length, τ₁⟩ callers w₁) := by
  obtain ⟨τ₁, hr₁, hk₁, hv₁⟩ := hc k code (pc + 1) τ callers ht h.cond ha
  exact ⟨τ₁, hk₁.agree ha, hv₁, hr₁⟩

/-- A body after which the loop goes round again leads back to the start. -/
theorem LoopPlaced.reaches_start {code part : List Instr} {pc : Nat} {c : Lowered Place} {l : Loop}
    {τ : Activation V} {callers : List (Caller V)} {t : State V}
    (h : LoopPlaced code pc c l part) (hrep : exit.repeats = true)
    (hland : landing (some l) ⟨code, pc + 1 + c.code.length + 1 + part.length, τ⟩ callers w exit
      = some t) : Reaches I program t (.active ⟨code, pc, τ⟩ callers w) := by
  cases exit with
  | normal =>
      cases hland
      exact reaches_goto h.back h.startIndex
  | «continue» =>
      simp only [landing, Frame.jump?, h.startIndex, Option.map_some, Option.bind_eq_bind,
        Option.bind_some, Option.pure_def, Option.some.injEq] at hland
      subst hland
      exact .refl
  | «break» => cases hrep
  | «return» r => cases hrep

/-- A loop whose condition is false is left. -/
theorem ExecSim.whileDone (hc : EvalSim I program σ w cond (some v) w₁)
    (hv : I.truth v = some false) : ExecSim I program σ w (.while cond body span) .normal σ w₁ := by
  intro loop supply supply' part code pc τ callers ht hlow hpl ha
  obtain ⟨inner, _, rfl⟩ := lower_while_eq_ok hlow
  rw [Layout.length_loop]
  have hl := hpl.loop
  obtain ⟨τ₁, ha₁, hv₁, hr₁⟩ := hl.reaches_test hc (ht.exprs _ List.mem_cons_self) ha
  have htest : Reaches I program (.active ⟨code, _, τ₁⟩ callers w₁) _ :=
    reaches_ifNotGoto_jump hv₁ hl.test hv hl.stopIndex
  exact ⟨τ₁, _, ha₁, landing_cast rfl (by omega),
    (((reaches_label hl.start).trans hr₁).trans htest).trans (reaches_label hl.stop)⟩

/-- One round of a loop, behind the label, as far as its body goes. -/
theorem LoopPlaced.reaches_landing {code part : List Instr} {pc k : Nat} {l : Loop}
    {τ : Activation V} {callers : List (Caller V)} {supply supply' : Supply}
    (h : LoopPlaced code pc (cond.lower k) l part) (hc : EvalSim I program σ w cond (some v) w₁)
    (hv : I.truth v = some true) (hb : AllSim I program σ w₁ body.statements exit σ' w₂)
    (hlow : body.lower (some l) supply = .ok part supply')
    (ht : TameCode (cond :: body.exprs) body.targets) (ha : Agree σ τ) :
    ∃ τ₁ t, Agree σ' τ₁ ∧
      landing (some l) ⟨code, pc + 1 + (cond.lower k).code.length + 1 + part.length, τ₁⟩ callers w₂
        exit = some t ∧ Reaches I program (.active ⟨code, pc + 1, τ⟩ callers w) t := by
  obtain ⟨τ₁, ha₁, hv₁, hr₁⟩ := h.reaches_test hc (ht.exprs _ List.mem_cons_self) ha
  have htest : Reaches I program (.active ⟨code, _, τ₁⟩ callers w₁) _ :=
    reaches_ifNotGoto_next hv₁ h.test hv
  rw [lower_block] at hlow
  have htb := ht.block (b := body) (List.subset_cons_self _ _) (List.Subset.refl _)
  obtain ⟨τ₂, t, ha₂, hland, hr₂⟩ := hb _ _ _ part code _ τ₁ callers htb hlow h.body ha₁
  exact ⟨τ₂, t, ha₂, hland, (hr₁.trans htest).trans hr₂⟩

/-- **A round of a loop** ends at the jump back, or jumps back by itself; the loop then starts again. -/
theorem ExecSim.whileNext (hc : EvalSim I program σ w cond (some v) w₁)
    (hv : I.truth v = some true) (hb : AllSim I program σ w₁ body.statements exit σ₁ w₂)
    (hrep : exit.repeats = true)
    (hmore : ExecSim I program σ₁ w₂ (.while cond body span) exit' σ₂ w₃) :
    ExecSim I program σ w (.while cond body span) exit' σ₂ w₃ := by
  intro loop supply supply' part code pc τ callers ht hlow hpl ha
  obtain ⟨inner, hinner, rfl⟩ := lower_while_eq_ok hlow
  have hl := hpl.loop
  obtain ⟨τ₁, t, ha₁, hland, hr₁⟩ := hl.reaches_landing hc hv hb hinner ht ha
  have hback : Reaches I program t (.active ⟨code, pc, τ₁⟩ callers w₂) :=
    hl.reaches_start hrep hland
  -- the machine stands at the start of the same code again
  obtain ⟨τ₂, t', ha₂, hland', hr₂⟩ := hmore _ _ _ _ code pc τ₁ callers ht hlow hpl ha₁
  exact ⟨τ₂, t', ha₂, hland', (((reaches_label hl.start).trans hr₁).trans hback).trans hr₂⟩

/-- A body that breaks off lands behind its loop. -/
theorem ExecSim.whileBreak (hc : EvalSim I program σ w cond (some v) w₁)
    (hv : I.truth v = some true) (hb : AllSim I program σ w₁ body.statements .break σ' w₂) :
    ExecSim I program σ w (.while cond body span) .normal σ' w₂ := by
  intro loop supply supply' part code pc τ callers ht hlow hpl ha
  obtain ⟨inner, hinner, rfl⟩ := lower_while_eq_ok hlow
  rw [Layout.length_loop]
  have hl := hpl.loop
  obtain ⟨τ₁, t, ha₁, hland, hr₁⟩ := hl.reaches_landing hc hv hb hinner ht ha
  -- the jump lands on the label behind the loop
  simp only [landing, Frame.jump?, hl.stopIndex, Option.map_some, Option.bind_eq_bind,
    Option.bind_some, Option.pure_def, Option.some.injEq] at hland
  subst hland
  exact ⟨τ₁, _, ha₁, landing_cast rfl (by omega),
    ((reaches_label hl.start).trans hr₁).trans (reaches_label hl.stop)⟩

/-- A body that returns leaves its loop and the frame. -/
theorem ExecSim.whileReturn (hc : EvalSim I program σ w cond (some v) w₁)
    (hv : I.truth v = some true) (hb : AllSim I program σ w₁ body.statements (.return r) σ' w₂) :
    ExecSim I program σ w (.while cond body span) (.return r) σ' w₂ := by
  intro loop supply supply' part code pc τ callers ht hlow hpl ha
  obtain ⟨inner, hinner, rfl⟩ := lower_while_eq_ok hlow
  have hl := hpl.loop
  obtain ⟨τ₁, t, ha₁, hland, hr₁⟩ := hl.reaches_landing hc hv hb hinner ht ha
  exact ⟨τ₁, t, ha₁, hland, (reaches_label hl.start).trans hr₁⟩

end Rules

end Machine
end TinyPascal
