import TinyPascal.Proofs.Code.StrayJumps
import TinyPascal.Proofs.Code.Tally

/-!
# `Proofs.Code.Generator` — a generator that is changed in place

`Stmt.lower` is told which loop is around a statement, and its supply counts names without a limit. A
generator that lives longer than one tree keeps both in its state. It opens a loop in front of the body,
closes it behind the body, and looks at the innermost one when it meets a jump; a loop that is left open
would give a later stray jump a target. It counts names with 32 bits, and everything ends when a count is
full. This module writes the generator down and relates it to lowering once: **it gives what lowering gives
and leaves open the loops that it found open, and it stops at a full count exactly if 32 bits do not hold
the names that lowering hands out.** So whatever is known of the code that lowering gives is known of the
code of a generator.

## Contents
- **Steps.** `Generator`, `Emit`; `bump?` counts with 32 bits, `Emit.inLoop` opens and closes a loop.
- **Lowering.** `Expr.emit`, `Stmt.emit`, `Program.emitWith`.
- **Names that are handed out.** `Spends n m x`: at most `n` temporaries and `m` labels, also where `x`
  fails. `Supply.Fits`: 32 bits hold them.
- **Agreement.** `Implements loops n m x y`: with the loops `loops` open, `x` does what `y` does. One lemma
  for each construct, up to `implements_emit_program`.
- **Programs.** `emitWith_eq_iff`, `emitWith_eq_overflow_iff`: what comes out of a generator.
  `forall_emitted`, `emitWith_new` and `emitWith_of_check` carry what is known of the code of programs over
  to generators. `allocation_accounted`.
-/

namespace TinyPascal

/-! ## Steps -/

/-- A generator: how many temporaries and how many labels it handed out, in 32 bits each, and the loops that
    are open, innermost first. -/
structure Generator where
  temps : UInt32 := 0
  labels : UInt32 := 0
  loops : List Loop := []
deriving DecidableEq, Repr

/-- The counts as numbers. -/
def Generator.supply (g : Generator) : Supply :=
  ⟨g.temps.toNat, g.labels.toNat⟩

/-- One more; none if the count is full. -/
def bump? (n : UInt32) : Option UInt32 :=
  if n.toNat + 1 < 2 ^ 32 then some (n + 1) else none

/-- Why a generator stops. -/
inductive GenStop where
  | stray (jump : StrayJump)
  /-- A count is full. -/
  | overflow
deriving DecidableEq, Repr

/-- A step of a generator. -/
abbrev Emit := EStateM GenStop Generator

namespace Emit

variable {α : Type}

/-- Hand out a temporary. -/
def temp : Emit Place :=
  fun g =>
    match bump? g.temps with
    | some n => .ok (tempName n.toNat) { g with temps := n }
    | none => .error .overflow g

/-- Hand out a label. -/
def label (stem : String) : Emit Label :=
  fun g =>
    match bump? g.labels with
    | some n => .ok (labelName stem n.toNat) { g with labels := n }
    | none => .error .overflow g

/-- Code, and what it leaves behind. -/
def leave (code : List Instr) (result : α) : Emit (Lowered α) :=
  fun g => .ok ⟨code, result, g.temps.toNat⟩ g

/-- Code that leaves its result in a new temporary. -/
def compute (code : Place → List Instr) : Emit (Lowered Place) := do
  let target ← temp
  leave (code target) target

/-- Open a loop, run its body, and close the loop, also behind a stray jump. A full count ends everything. -/
def inLoop (l : Loop) (body : Emit α) : Emit α :=
  fun g =>
    match body { g with loops := l :: g.loops } with
    | .ok a g' => .ok a { g' with loops := g'.loops.tail }
    | .error (.stray jump) g' => .error (.stray jump) { g' with loops := g'.loops.tail }
    | .error .overflow g' => .error .overflow g'

/-- The innermost open loop, for a jump that is stray if there is none. -/
def innermost (jump : StrayJump) : Emit Loop :=
  fun g =>
    match g.loops with
    | l :: _ => .ok l g
    | [] => .error (.stray jump) g

end Emit

/-! ## Lowering -/

open Emit

mutual

/-- The code of an expression and the place of its value. -/
def Expr.emit : Expr → Emit (Lowered Place)
  | .int n _ => compute fun target => [.const target (.int n)]
  | .bool b _ => compute fun target => [.const target (.bool b)]
  | .var name _ => leave [] name
  | .paren inner _ => inner.emit
  | .not operand _ => do
    let a ← operand.emit
    compute fun target => a.code ++ [.not target a.result]
  | .binary op left right _ => do
    let a ← left.emit
    let b ← right.emit
    compute fun target => a.code ++ b.code ++ [.binary op target a.result b.result]
  | .call callee args _ => do
    let a ← emitArgs args
    compute fun target => a.code ++ [.call target callee.name a.result]

/-- The code of arguments from left to right, and the places of their values. -/
def emitArgs : List Expr → Emit (Lowered (List Place))
  | [] => leave [] []
  | e :: es => do
    let a ← e.emit
    let b ← emitArgs es
    leave (a.code ++ b.code) (a.result :: b.result)

end

/-- The code that prints values, each as soon as it is there. -/
def emitPrints : List Expr → Emit (Lowered Unit)
  | [] => leave [] ()
  | e :: es => do
    let a ← e.emit
    let b ← emitPrints es
    leave (a.code ++ [.print a.result] ++ b.code) ()

mutual

/-- The code of a statement inside the loops that are open. -/
def Stmt.emit : Stmt → Emit (List Instr)
  | .assign target value _ => do
    let a ← value.emit
    return a.code ++ [.assign target.name a.result]
  | .call callee args span => do
    let a ← (Expr.call callee args span).emit
    return a.code
  | .return none _ => return [.ret none]
  | .return (some value) _ => do
    let a ← value.emit
    return a.code ++ [.ret (some a.result)]
  | .ifThen cond yes _ => do
    let c ← cond.emit
    discard <| label "L_then_"
    let stop ← label "L_end_"
    let body ← yes.emit
    return c.code ++ [.ifNotGoto c.result stop] ++ body ++ [.label stop]
  | .ifElse cond yes no _ => do
    let c ← cond.emit
    let first ← label "L_then_"
    let second ← label "L_else_"
    let stop ← label "L_end_"
    let a ← yes.emit
    let b ← no.emit
    return c.code ++ [.ifGoto c.result first, .goto second, .label first] ++ a
      ++ [.goto stop, .label second] ++ b ++ [.label stop]
  | .while cond body _ => do
    let start ← label "L_while_start_"
    let stop ← label "L_while_end_"
    let c ← cond.emit
    let a ← inLoop ⟨start, stop⟩ body.emit
    return [.label start] ++ c.code ++ [.ifNotGoto c.result stop] ++ a
      ++ [.goto start, .label stop]
  | .break span => do
    let l ← innermost ⟨.break, span⟩
    return [.goto l.stop]
  | .continue span => do
    let l ← innermost ⟨.continue, span⟩
    return [.goto l.start]
  | .write args _ => do
    let a ← emitPrints args
    return a.code

def Block.emit : Block → Emit (List Instr)
  | ⟨statements, _⟩ => emitAll statements

/-- The code of statements in order. -/
def emitAll : List Stmt → Emit (List Instr)
  | [] => return []
  | s :: more => do
    let a ← s.emit
    let b ← emitAll more
    return a ++ b

end

/-- The section of a routine. Nothing clears the open loops in front of its body. -/
def Routine.emit (r : Routine) : Emit (List Instr) := do
  let params := (Param.flatten r.params).map (fun (name, ty) => (name.name, ty))
  let body ← r.body.emit
  return [.sectionStart r.sectionKind (some r.name.name) params r.result] ++ body
    ++ [.sectionEnd r.sectionKind (some r.name.name)]

/-- The code of declarations in order. -/
def emitDecls : List Decl → Emit (List Instr)
  | [] => return []
  | .vars decl :: more => do
    let b ← emitDecls more
    return .decl (decl.names.map Ident.name) decl.ty :: b
  | .routine r :: more => do
    let a ← r.emit
    let b ← emitDecls more
    return a ++ b

namespace Program

def emit (p : Program) : Emit (List Instr) := do
  let declarations ← emitDecls p.declarations
  let main ← p.main.emit
  return declarations ++ [.sectionStart .main none [] none] ++ main ++ [.sectionEnd .main none]

/-- The code of a program from a given generator, and the generator after it. -/
def emitWith (p : Program) (g : Generator) : Except GenStop (List Instr) × Generator :=
  match p.emit g with
  | .ok code g' => (.ok code, g')
  | .error stop g' => (.error stop, g')

end Program

/-! ## Names that are handed out -/

/-- The later of two supplies has handed out all that the earlier one has. -/
instance : LE Supply where
  le s s' := s.temps ≤ s'.temps ∧ s.labels ≤ s'.labels

/-- The names of one supply, further on by those of another. -/
instance : Add Supply where
  add n s := ⟨n.temps + s.temps, n.labels + s.labels⟩

namespace Supply

variable {s s₁ s' : Supply}

theorem le_refl (s : Supply) : s ≤ s :=
  ⟨Nat.le_refl _, Nat.le_refl _⟩

theorem le_trans (h : s ≤ s₁) (h' : s₁ ≤ s') : s ≤ s' :=
  ⟨Nat.le_trans h.1 h'.1, Nat.le_trans h.2 h'.2⟩

theorem le_add_left (n s : Supply) : s ≤ n + s :=
  ⟨Nat.le_add_left _ _, Nat.le_add_left _ _⟩

/-- 32 bits hold both counts. -/
def Fits (s : Supply) : Prop :=
  s.temps < 2 ^ 32 ∧ s.labels < 2 ^ 32

instance (s : Supply) : Decidable s.Fits :=
  inferInstanceAs (Decidable (_ ∧ _))

/-- Where the later counts fit, the earlier ones do. -/
theorem Fits.mono (h : s'.Fits) (hle : s ≤ s') : s.Fits :=
  ⟨Nat.lt_of_le_of_lt hle.1 h.1, Nat.lt_of_le_of_lt hle.2 h.2⟩

end Supply

namespace Generator

variable {g g' : Generator}

theorem supply_fits (g : Generator) : g.supply.Fits :=
  ⟨g.temps.toNat_lt, g.labels.toNat_lt⟩

/-- A generator is its counts and its open loops. -/
theorem eq_of_supply (h : g.supply = g'.supply) (hloops : g.loops = g'.loops) : g = g' := by
  obtain ⟨temps, labels, loops⟩ := g
  obtain ⟨temps', labels', loops'⟩ := g'
  obtain ⟨htemps, hlabels⟩ := Supply.mk.inj h
  cases UInt32.toNat_inj.mp htemps
  cases UInt32.toNat_inj.mp hlabels
  cases hloops
  rfl

end Generator

section Agreement

variable {α β : Type}

/-- **A bound on what is handed out.** The step takes at most `n` temporaries and `m` labels and gives none
    back, whether or not it fails. -/
def Spends (n m : Nat) (x : Gen α) : Prop :=
  ∀ s, s ≤ EStateM.state (x s) ∧ EStateM.state (x s) ≤ s + ⟨n, m⟩

namespace Spends

variable {n n' m m' : Nat} {x : Gen α} {f : α → Gen β}

theorem pure (a : α) : Spends 0 0 (Pure.pure a : Gen α) :=
  fun s => ⟨s.le_refl, s.le_refl⟩

theorem throw (e : StrayJump) : Spends 0 0 (throw e : Gen α) :=
  fun s => ⟨s.le_refl, s.le_refl⟩

/-- What the first step has handed out stays handed out. -/
theorem le_bind (hf : ∀ a, Spends n m (f a)) (s : Supply) :
    EStateM.state (x s) ≤ EStateM.state ((x >>= f) s) := by
  cases hx : x s with
  | ok a s₁ =>
      rw [EStateM.bind_of_ok hx]
      exact (hf a s₁).1
  | error e s₁ =>
      rw [EStateM.bind_of_error hx]
      exact s₁.le_refl

/-- Two steps in a row take what they take one by one. -/
theorem bind (hx : Spends n m x) (hf : ∀ a, Spends n' m' (f a)) :
    Spends (n + n') (m + m') (x >>= f) := by
  intro s
  obtain ⟨hle, htemps, hlabels⟩ := hx s
  refine ⟨Supply.le_trans hle (le_bind hf s), ?_⟩
  cases hx : x s with
  | ok a s₁ =>
      rw [EStateM.bind_of_ok hx]
      rw [hx] at htemps hlabels
      obtain ⟨_, htemps', hlabels'⟩ := hf a s₁
      refine ⟨Nat.le_trans htemps' ?_, Nat.le_trans hlabels' ?_⟩
      · show s₁.temps + n' ≤ s.temps + (n + n')
        rw [← Nat.add_assoc]
        exact Nat.add_le_add_right htemps n'
      · show s₁.labels + m' ≤ s.labels + (m + m')
        rw [← Nat.add_assoc]
        exact Nat.add_le_add_right hlabels m'
  | error e s₁ =>
      rw [EStateM.bind_of_error hx]
      rw [hx] at htemps hlabels
      refine ⟨Nat.le_trans htemps ?_, Nat.le_trans hlabels ?_⟩
      · exact Nat.add_le_add_left (Nat.le_add_right _ _) _
      · exact Nat.add_le_add_left (Nat.le_add_right _ _) _

end Spends

/-! ## Agreement -/

/-- **The same result, or a full count.** The generator gave the first result, and the step without a limit
    the second; the generator has the loops `loops` open. A count is full only if 32 bits do not hold the
    names that the step without a limit has handed out. -/
inductive SameUnlessFull (loops : List Loop) :
    EStateM.Result GenStop Generator α → EStateM.Result StrayJump Supply α → Prop where
  | ok (a : α) (g : Generator) (hloops : g.loops = loops) :
      SameUnlessFull loops (.ok a g) (.ok a g.supply)
  | stray (e : StrayJump) (g : Generator) (hloops : g.loops = loops) :
      SameUnlessFull loops (.error (.stray e) g) (.error e g.supply)
  | full (g : Generator) (r : EStateM.Result StrayJump Supply α) (h : ¬ (EStateM.state r).Fits) :
      SameUnlessFull loops (.error .overflow g) r

/-- **Doing the same in place.** With the loops `loops` open, the generator step `x` does what `y` does, and
    leaves these loops open, unless a count gets full; and `y` takes at most `n` temporaries and `m`
    labels. -/
structure Implements (loops : List Loop) (n m : Nat) (x : Emit α) (y : Gen α) : Prop where
  spends : Spends n m y
  same : ∀ g : Generator, g.loops = loops → SameUnlessFull loops (x g) (y g.supply)

namespace Implements

variable {loops : List Loop} {n n' m m' : Nat} {x : Emit α} {y : Gen α}

theorem pure (a : α) : Implements loops 0 0 (Pure.pure a) (Pure.pure a) :=
  ⟨.pure a, fun g hg => .ok a g hg⟩

/-- Two steps in a row. A count that is full behind the first one is too small for both, since names are
    not given back. -/
theorem bind {f : α → Emit β} {h : α → Gen β} (hx : Implements loops n m x y)
    (hf : ∀ a, Implements loops n' m' (f a) (h a)) :
    Implements loops (n + n') (m + m') (x >>= f) (y >>= h) := by
  have hspends := fun a => (hf a).spends
  refine ⟨hx.spends.bind hspends, fun g hg => ?_⟩
  have hle : EStateM.state (y g.supply) ≤ EStateM.state ((y >>= h) g.supply) :=
    Spends.le_bind hspends g.supply
  have hfirst := hx.same g hg
  generalize hxg : x g = rx at hfirst
  generalize hyg : y g.supply = ry at hfirst hle
  cases hfirst with
  | ok a g₁ hloops =>
      rw [EStateM.bind_of_ok hxg, EStateM.bind_of_ok hyg]
      exact (hf a).same g₁ hloops
  | stray e g₁ hloops =>
      rw [EStateM.bind_of_error hxg, EStateM.bind_of_error hyg]
      exact .stray e g₁ hloops
  | full g₁ _ hfull =>
      rw [EStateM.bind_of_error hxg]
      exact .full g₁ _ (fun hfits => hfull (hfits.mono hle))

theorem discard (hx : Implements loops n m x y) : Implements loops n m (discard x) (discard y) :=
  hx.bind fun _ => .pure ()

/-- The loop that was opened is closed again. -/
theorem inLoop {l : Loop} (hx : Implements (l :: loops) n m x y) :
    Implements loops n m (Emit.inLoop l x) y := by
  refine ⟨hx.spends, fun g hg => ?_⟩
  have hopen : (⟨g.temps, g.labels, l :: g.loops⟩ : Generator).loops = l :: loops := by rw [← hg]
  have hbody := hx.same _ hopen
  unfold Emit.inLoop
  generalize x ⟨g.temps, g.labels, l :: g.loops⟩ = rx at hbody ⊢
  have hsupply : Generator.supply ⟨g.temps, g.labels, l :: g.loops⟩ = g.supply := rfl
  rw [hsupply] at hbody
  generalize y g.supply = ry at hbody ⊢
  cases hbody with
  | ok a g₁ hloops =>
      exact .ok a { g₁ with loops := g₁.loops.tail } (by rw [hloops]; rfl)
  | stray e g₁ hloops =>
      exact .stray e { g₁ with loops := g₁.loops.tail } (by rw [hloops]; rfl)
  | full g₁ _ hfull => exact .full g₁ _ hfull

theorem congr (h : Implements loops n m x y) (hn : n = n') (hm : m = m') :
    Implements loops n' m' x y := by
  rw [← hn, ← hm]
  exact h

end Implements

/-- A count that is not full counts one more. -/
theorem bump?_cases (n : UInt32) :
    (bump? n = some (n + 1) ∧ (n + 1).toNat = n.toNat + 1) ∨
      bump? n = none ∧ ¬ n.toNat + 1 < 2 ^ 32 := by
  unfold bump?
  by_cases h : n.toNat + 1 < 2 ^ 32
  · rw [if_pos h]
    refine .inl ⟨rfl, ?_⟩
    rw [UInt32.toNat_add]
    exact Nat.mod_eq_of_lt h
  · rw [if_neg h]
    exact .inr ⟨rfl, h⟩

variable {loops : List Loop}

theorem implements_label (stem : String) : Implements loops 0 1 (Emit.label stem) (Gen.label stem) := by
  refine ⟨fun s => ⟨⟨Nat.le_refl _, Nat.le_succ _⟩, ⟨Nat.le_refl _, Nat.le_refl _⟩⟩, fun g hg => ?_⟩
  unfold Emit.label
  rcases bump?_cases g.labels with ⟨hbump, hnumber⟩ | ⟨hbump, hfull⟩
  · rw [hbump]
    have hsupply : Gen.label stem g.supply = .ok (labelName stem (g.labels + 1).toNat)
        (Generator.supply { g with labels := g.labels + 1 }) := by
      unfold Generator.supply
      rw [hnumber]
      rfl
    rw [hsupply]
    exact .ok _ _ hg
  · rw [hbump]
    exact .full g _ (fun hfits => hfull hfits.2)

theorem implements_temp :
    Implements loops 1 0 Emit.temp (modifyGet Supply.temp : Gen Place) := by
  refine ⟨fun s => ⟨⟨Nat.le_succ _, Nat.le_refl _⟩, ⟨Nat.le_refl _, Nat.le_refl _⟩⟩, fun g hg => ?_⟩
  unfold Emit.temp
  rcases bump?_cases g.temps with ⟨hbump, hnumber⟩ | ⟨hbump, hfull⟩
  · rw [hbump]
    have hsupply : (modifyGet Supply.temp : Gen Place) g.supply =
        .ok (tempName (g.temps + 1).toNat) (Generator.supply { g with temps := g.temps + 1 }) := by
      unfold Generator.supply
      rw [hnumber]
      rfl
    rw [hsupply]
    exact .ok _ _ hg
  · rw [hbump]
    exact .full g _ (fun hfits => hfull hfits.1)

theorem implements_leave (code : List Instr) (result : α) :
    Implements loops 0 0 (leave code result) (Gen.temps fun k => ⟨code, result, k⟩) :=
  ⟨fun s => ⟨s.le_refl, s.le_refl⟩, fun g hg => .ok _ g hg⟩

/-- One more temporary, for the result. -/
theorem implements_compute (code : Place → List Instr) :
    Implements loops 1 0 (compute code)
      (Gen.temps fun k => ⟨code (tempName (k + 1)), tempName (k + 1), k + 1⟩) :=
  implements_temp.bind fun _ => implements_leave _ _

theorem implements_innermost (l : Loop) (jump : StrayJump) :
    Implements (l :: loops) 0 0 (innermost jump) (pure l) := by
  refine ⟨.pure l, fun g hg => ?_⟩
  unfold innermost
  rw [hg]
  exact .ok l g hg

/-- A jump without an open loop is stray. -/
theorem implements_innermost_stray (jump : StrayJump) :
    Implements [] 0 0 (innermost jump) (throw jump) := by
  refine ⟨.throw jump, fun g hg => ?_⟩
  unfold innermost
  rw [hg]
  exact .stray jump g hg

end Agreement

mutual

/-- The generator implements the lowering of an expression. -/
theorem implements_emit_expr (loops : List Loop) : ∀ e : Expr,
    Implements loops e.tempCount 0 e.emit (Gen.temps e.lower)
  | .int _ _ | .bool _ _ => implements_compute _
  | .var _ _ => implements_leave _ _
  | .paren inner _ => implements_emit_expr loops inner
  | .not operand _ => (implements_emit_expr loops operand).bind fun _ => implements_compute _
  | .binary _ left right _ =>
      (implements_emit_expr loops left).bind fun _ =>
        (implements_emit_expr loops right).bind fun _ => implements_compute _
  | .call _ args _ => (implements_emitArgs loops args).bind fun _ => implements_compute _

theorem implements_emitArgs (loops : List Loop) : ∀ es : List Expr,
    Implements loops (tempCountOf es) 0 (emitArgs es) (Gen.temps (lowerArgs es))
  | [] => implements_leave _ _
  | e :: es =>
      (implements_emit_expr loops e).bind fun _ =>
        (implements_emitArgs loops es).bind fun _ => implements_leave _ _

end

/-- The generator implements the lowering of a `writeln`. -/
theorem implements_emitPrints (loops : List Loop) : ∀ es : List Expr,
    Implements loops (tempCountOf es) 0 (emitPrints es) (Gen.temps (lowerPrints es))
  | [] => implements_leave _ _
  | e :: es =>
      (implements_emit_expr loops e).bind fun _ =>
        (implements_emitPrints loops es).bind fun _ => implements_leave _ _

mutual

/-- **A generator lowers statements as `Stmt.lower` does inside the innermost open loop**, and a statement
    takes at most the names that it costs. The induction is over the statement; only the body of a loop is
    lowered with other loops open. -/
theorem implements_emit : ∀ (st : Stmt) (loops : List Loop),
    Implements loops (tempCountOf st.exprs) (labelCosts (st :: st.nested)) st.emit (st.lower loops.head?)
  | .assign _ value _, loops => (implements_emit_expr loops value).bind fun _ => .pure _
  | .call callee args span, loops =>
      (implements_emit_expr loops (.call callee args span)).bind fun _ => .pure _
  | .return none _, _ => .pure _
  | .return (some value) _, loops => (implements_emit_expr loops value).bind fun _ => .pure _
  | .ifThen cond yes _, loops => by
      unfold Stmt.emit Stmt.lower
      refine Implements.congr ((implements_emit_expr loops cond).bind fun c =>
        (implements_label "L_then_").discard.bind fun _ => (implements_label "L_end_").bind fun stop =>
          (implements_emit_block yes loops).bind fun body => .pure _) ?_ ?_
      · simp only [Stmt.exprs, tempCountOf]
        omega
      · simp only [Stmt.nested, labelCosts_cons, Stmt.labelCost]
        omega
  | .ifElse cond yes no _, loops => by
      unfold Stmt.emit Stmt.lower
      refine Implements.congr ((implements_emit_expr loops cond).bind fun c =>
        (implements_label "L_then_").bind fun first => (implements_label "L_else_").bind fun second =>
          (implements_label "L_end_").bind fun stop => (implements_emit_block yes loops).bind fun a =>
            (implements_emit_block no loops).bind fun b => .pure _) ?_ ?_
      · simp only [Stmt.exprs, tempCountOf, tempCountOf_append]
        omega
      · simp only [Stmt.nested, labelCosts_cons, labelCosts_append, Stmt.labelCost]
        omega
  | .while cond body _, loops => by
      unfold Stmt.emit Stmt.lower
      refine Implements.congr ((implements_label "L_while_start_").bind fun start =>
        (implements_label "L_while_end_").bind fun stop => (implements_emit_expr loops cond).bind fun c =>
          (implements_emit_block body (⟨start, stop⟩ :: loops)).inLoop.bind fun a => .pure _) ?_ ?_
      · simp only [Stmt.exprs, tempCountOf]
        omega
      · simp only [Stmt.nested, labelCosts_cons, Stmt.labelCost]
        omega
  | .break span, [] => (implements_innermost_stray ⟨.break, span⟩).bind fun _ => .pure _
  | .break span, l :: _ => (implements_innermost l ⟨.break, span⟩).bind fun _ => .pure _
  | .continue span, [] => (implements_innermost_stray ⟨.continue, span⟩).bind fun _ => .pure _
  | .continue span, l :: _ => (implements_innermost l ⟨.continue, span⟩).bind fun _ => .pure _
  | .write args _, loops => (implements_emitPrints loops args).bind fun _ => .pure _

/-- The generator implements the lowering of a block inside the loops that are open around it. -/
theorem implements_emit_block : ∀ (b : Block) (loops : List Loop),
    Implements loops (tempCountOf b.exprs) (labelCosts b.stmts) b.emit (b.lower loops.head?)
  | ⟨statements, _⟩, loops => implements_emitAll statements loops

/-- The generator implements the lowering of a sequence of statements. -/
theorem implements_emitAll : ∀ (ss : List Stmt) (loops : List Loop),
    Implements loops (tempCountOf (exprsOf ss)) (labelCosts (stmtsOf ss)) (emitAll ss)
      (lowerAll loops.head? ss)
  | [], _ => .pure _
  | st :: more, loops => by
      refine Implements.congr ((implements_emit st loops).bind fun a =>
        (implements_emitAll more loops).bind fun b => .pure _) ?_ ?_
      · rw [exprsOf, tempCountOf_append]
        rfl
      · rw [stmtsOf, labelCosts_append]
        rfl

end

/-! Only with no loop open does a generator lower a body as `Routine.lower` and `Program.lower` do. -/

/-- The generator implements the lowering of declarations, where no loop is open. -/
theorem implements_emitDecls (ds : List Decl) :
    Implements [] (tempCountOf (((ds.filterMap Decl.routine?).map Routine.body).flatMap Block.exprs))
      (labelCosts (((ds.filterMap Decl.routine?).map Routine.body).flatMap Block.stmts))
      (emitDecls ds) (lowerDecls ds) := by
  induction ds with
  | nil => exact .pure _
  | cons d ds ih =>
      cases d with
      | vars decl => exact ih.bind fun _ => .pure _
      | routine r =>
          have hroutine : Implements [] (tempCountOf r.body.exprs) (labelCosts r.body.stmts) r.emit
              r.lower := (implements_emit_block r.body []).bind fun _ => .pure _
          refine Implements.congr (hroutine.bind fun _ => ih.bind fun _ => .pure _) ?_ ?_
          · exact (tempCountOf_append _ _).symm
          · exact (labelCosts_append _ _).symm

/-- **The generator implements the lowering of a program.** -/
theorem implements_emit_program (p : Program) :
    Implements [] p.tempCount (labelCosts p.stmts) p.emit p.lower := by
  refine Implements.congr ((implements_emitDecls p.declarations).bind fun _ =>
    (implements_emit_block p.main []).bind fun _ => .pure _) ?_ ?_
  · unfold Program.tempCount Program.bodies Program.routines
    rw [List.flatMap_append, List.flatMap_singleton, tempCountOf_append]
    rfl
  · unfold Program.stmts Program.bodies Program.routines
    rw [List.flatMap_append, List.flatMap_singleton, labelCosts_append]
    rfl

/-! ## Programs -/

section Programs

variable (p : Program) {s : Supply} {g g' : Generator} {code : List Instr} {jump : StrayJump}

theorem codeWith_snd (s : Supply) : (p.codeWith s).2 = EStateM.state (p.lower s) := by
  unfold Program.codeWith
  cases p.lower s <;> rfl

/-- A program gives no names back, whether or not it has code. -/
theorem le_codeWith (s : Supply) : s ≤ (p.codeWith s).2 := by
  rw [codeWith_snd]
  exact ((implements_emit_program p).spends s).1

/-- A program takes at most the names that its nodes cost, whether or not it has code. -/
theorem codeWith_le (s : Supply) : (p.codeWith s).2 ≤ s + ⟨p.tempCount, labelCosts p.stmts⟩ := by
  rw [codeWith_snd]
  exact ((implements_emit_program p).spends s).2

/-- A stray jump is known by its wrapped form. -/
theorem mapError_stray_inj {x y : Except StrayJump (List Instr)}
    (h : x.mapError GenStop.stray = y.mapError .stray) : x = y := by
  cases x <;> cases y <;> cases h <;> rfl

/-- **What comes out of a generator without open loops**: what lowering gives, with no loop open behind it;
    or a full count, where 32 bits do not hold the names that lowering hands out. -/
theorem emitWith_cases (hg : g.loops = []) :
    (∃ code g', p.emitWith g = (.ok code, g') ∧ p.codeWith g.supply = (.ok code, g'.supply) ∧
      g'.loops = []) ∨
    (∃ jump g', p.emitWith g = (.error (.stray jump), g') ∧
      p.codeWith g.supply = (.error jump, g'.supply) ∧ g'.loops = []) ∨
    ∃ g', p.emitWith g = (.error .overflow, g') ∧ ¬ (p.codeWith g.supply).2.Fits := by
  have hsame := (implements_emit_program p).same g hg
  have hstate := codeWith_snd p g.supply
  unfold Program.emitWith Program.codeWith at *
  generalize p.emit g = r at hsame ⊢
  generalize p.lower g.supply = r' at hsame hstate ⊢
  cases hsame with
  | ok code g₁ hloops => exact .inl ⟨code, g₁, rfl, rfl, hloops⟩
  | stray jump g₁ hloops => exact .inr (.inl ⟨jump, g₁, rfl, rfl, hloops⟩)
  | full g₁ _ hfull =>
      rw [← hstate] at hfull
      exact .inr (.inr ⟨g₁, rfl, hfull⟩)

/-- **A count gets full exactly if 32 bits do not hold the names that lowering hands out.** -/
theorem emitWith_eq_overflow_iff (hg : g.loops = []) :
    (p.emitWith g).1 = .error .overflow ↔ ¬ (p.codeWith g.supply).2.Fits := by
  rcases emitWith_cases p hg with ⟨code, g₁, hemit, hcode, -⟩ | ⟨jump, g₁, hemit, hcode, -⟩ |
    ⟨g₁, hemit, hfull⟩
  · rw [hemit, hcode]
    exact ⟨nofun, fun hfull => absurd g₁.supply_fits hfull⟩
  · rw [hemit, hcode]
    exact ⟨nofun, fun hfull => absurd g₁.supply_fits hfull⟩
  · rw [hemit]
    exact ⟨fun _ => hfull, fun _ => rfl⟩

/-- Where 32 bits hold the names, a generator does what lowering does. -/
theorem emitWith_of_fits (hg : g.loops = []) (hfits : (p.codeWith g.supply).2.Fits) :
    (p.emitWith g).1 = (p.codeWith g.supply).1.mapError .stray ∧
      (p.emitWith g).2.supply = (p.codeWith g.supply).2 ∧ (p.emitWith g).2.loops = [] := by
  rcases emitWith_cases p hg with ⟨code, g₁, hemit, hcode, hloops⟩ | ⟨jump, g₁, hemit, hcode, hloops⟩ |
    ⟨g₁, hemit, hfull⟩
  · rw [hemit, hcode]
    exact ⟨rfl, rfl, hloops⟩
  · rw [hemit, hcode]
    exact ⟨rfl, rfl, hloops⟩
  · exact absurd hfits hfull

/-- **A generator gives what lowering gives with its counts**, code or a stray jump, and stops with the same
    counts. A result of the generator other than a full count is one of lowering, with its error wrapped. -/
theorem emitWith_eq_iff (hg : g.loops = []) (result : Except StrayJump (List Instr)) :
    p.emitWith g = (result.mapError .stray, g') ↔
      p.codeWith g.supply = (result, g'.supply) ∧ g'.loops = [] := by
  by_cases hfits : (p.codeWith g.supply).2.Fits
  · obtain ⟨hresult, hsupply, hloops⟩ := emitWith_of_fits p hg hfits
    constructor
    · intro hemit
      rw [hemit] at hresult hsupply hloops
      exact ⟨Prod.ext (mapError_stray_inj hresult).symm hsupply.symm, hloops⟩
    · rintro ⟨hcode, hloops'⟩
      rw [hcode] at hresult hsupply
      exact Prod.ext hresult (Generator.eq_of_supply hsupply (hloops.trans hloops'.symm))
  · -- a full count is no result of lowering, and the counts behind a result fit
    constructor
    · intro hemit
      have hfull := (emitWith_eq_overflow_iff p hg).mpr hfits
      rw [hemit] at hfull
      cases result <;> cases hfull
    · rintro ⟨hcode, -⟩
      rw [hcode] at hfits
      exact absurd g'.supply_fits hfits

/-- A generator has the code that lowering has. -/
theorem emitWith_eq_ok_iff (hg : g.loops = []) :
    p.emitWith g = (.ok code, g') ↔
      p.codeWith g.supply = (.ok code, g'.supply) ∧ g'.loops = [] :=
  emitWith_eq_iff p hg (.ok code)

/-- A generator fails with the stray jump that lowering fails with. -/
theorem emitWith_eq_stray_iff (hg : g.loops = []) :
    p.emitWith g = (.error (.stray jump), g') ↔
      p.codeWith g.supply = (.error jump, g'.supply) ∧ g'.loops = [] :=
  emitWith_eq_iff p hg (.error jump)

/-- **What holds of the code that lowering gives holds of the code of every generator**, whatever it was asked
    before. -/
theorem forall_emitted {P : List Instr → Prop}
    (h : ∀ s code s', p.codeWith s = (.ok code, s') → P code) (hg : g.loops = []) :
    ∀ code g', p.emitWith g = (.ok code, g') → P code := by
  intro code g' hemit
  exact h _ _ _ ((emitWith_eq_ok_iff p hg).mp hemit).1

end Programs

/-- **The code of a new generator is the code of the program**, and it fails where the program has none, with
    the same jump, unless 32 bits do not hold the names. -/
theorem emitWith_new (p : Program) :
    (∀ code, (p.emitWith {}).1 = .ok code ↔ p.code = .ok code ∧ (p.codeWith {}).2.Fits) ∧
    (∀ jump, (p.emitWith {}).1 = .error (.stray jump) ↔
      p.code = .error jump ∧ (p.codeWith {}).2.Fits) ∧
    ((p.emitWith {}).1 = .error .overflow ↔ ¬ (p.codeWith {}).2.Fits) := by
  by_cases hfits : (p.codeWith {}).2.Fits
  · have hresult : (p.emitWith {}).1 = p.code.mapError .stray :=
      (emitWith_of_fits p (g := {}) rfl hfits).1
    rw [hresult]
    cases p.code <;> simp [Except.mapError, hfits]
  · rw [(emitWith_eq_overflow_iff p (g := {}) rfl).mpr hfits]
    simp [hfits]

/-- **A generator meets no stray jump in a checked tree**, and has code for it if 32 bits hold the names. -/
theorem emitWith_of_check {p : Program} {t : Table} {g : Generator} (hcheck : p.check = .ok t)
    (hg : g.loops = []) :
    (∀ jump, (p.emitWith g).1 ≠ .error (.stray jump)) ∧
      ((p.codeWith g.supply).2.Fits → ∃ code, (p.emitWith g).1 = .ok code) := by
  have hnone : ∀ jump, (p.codeWith g.supply).1 ≠ .error jump := by
    intro jump hjump
    rw [codeWith_eq_error_iff, strays_of_check_program hcheck] at hjump
    cases hjump
  rcases emitWith_cases p hg with ⟨code, g', hemit, -, -⟩ | ⟨jump, g', -, hcode, -⟩ |
    ⟨g', hemit, hfull⟩
  · rw [hemit]
    exact ⟨nofun, fun _ => ⟨code, rfl⟩⟩
  · exact absurd (congrArg Prod.fst hcode) (hnone jump)
  · rw [hemit]
    exact ⟨nofun, fun hfits => absurd hfits hfull⟩

/-- **Names and code are exactly accounted for.** Where a program has code, the temporaries that it takes are
    as many as its literals, operators and calls, at any depth; the labels are two for each `if` without
    `else`, three for each `if` with `else` and two for each `while`; and the code is as long as the nodes
    say. A generator that counts with 32 bits and gives code gives this code and ends with these counts. No
    count gets full, whether or not the program has code, if it has fewer than 2^32 literals, operators and
    calls, and fewer than 2^32 / 3 statements that take labels. -/
theorem allocation_accounted (p : Program) :
    (∀ code s, p.codeWith {} = (.ok code, s) → p.Accounted code s) ∧
    (∀ code g, p.emit {} = .ok code g →
      p.codeWith {} = (.ok code, g.supply) ∧ p.Accounted code g.supply) ∧
    (p.exprs.countP Expr.isComputed < 2 ^ 32 →
      3 * (p.count .ifThen + p.count .ifElse + p.count .while) < 2 ^ 32 →
      EStateM.error? (p.emit {}) ≠ some .overflow ∧
      seenThrough id Generator.supply (p.emit {}) = seenThrough .stray id (p.lower {})) := by
  refine ⟨fun code s => accounted_of_codeWith, ?_, ?_⟩
  · intro code g h
    have hemit : p.emitWith {} = (.ok code, g) := by
      unfold Program.emitWith
      rw [h]
    have hcode : p.codeWith {} = (.ok code, g.supply) :=
      ((emitWith_eq_ok_iff p (g := {}) rfl).mp hemit).1
    exact ⟨hcode, accounted_of_codeWith hcode⟩
  · intro htemps hlabels
    have hbound : Supply.Fits (({} : Supply) + ⟨p.tempCount, labelCosts p.stmts⟩) := by
      refine ⟨?_, ?_⟩
      · show 0 + p.tempCount < 2 ^ 32
        rw [Nat.zero_add, Program.tempCount, tempCountOf_eq_countP]
        exact htemps
      · show 0 + labelCosts p.stmts < 2 ^ 32
        rw [labelCosts_eq]
        unfold Program.count at hlabels
        omega
    have hfits : (EStateM.state (p.lower {})).Fits := by
      rw [← codeWith_snd]
      exact hbound.mono (codeWith_le p {})
    have hsame : SameUnlessFull [] (p.emit {}) (p.lower {}) := (implements_emit_program p).same {} rfl
    generalize p.emit {} = r at hsame
    generalize p.lower {} = r' at hsame hfits
    cases hsame with
    | ok code g _ => exact ⟨nofun, rfl⟩
    | stray e g _ => exact ⟨nofun, rfl⟩
    | full g _ hfull => exact absurd hfits hfull

/-- Every kind of statement, in a function and in a loop. -/
def everyForm : Program :=
  ⟨[.vars ⟨[⟨"a", {}⟩], .integer, {}⟩,
    .routine ⟨⟨"f", {}⟩, [⟨[⟨"x", {}⟩], .integer, {}⟩], some .integer,
      ⟨[.return (some (.binary .add (.var "x" {}) (.int 1 {}) {})) {}], {}⟩, {}⟩],
   ⟨[.while (.not (.bool false {}) {})
      ⟨[.ifElse (.binary .lt (.var "a" {}) (.int 5 {}) {})
          ⟨[.assign ⟨"a", {}⟩ (.call ⟨"f", {}⟩ [.var "a" {}] {}) {}, .continue {}], {}⟩
          ⟨[.ifThen (.bool true {}) ⟨[.break {}], {}⟩ {}, .call ⟨"f", {}⟩ [.int 2 {}] {}], {}⟩ {}], {}⟩ {},
     .write [.var "a" {}, .int 3 {}] {}], {}⟩, {}⟩

/-- Eleven literals, operators and calls, and seven labels for three statements, of which one label is not
    set: 34 instructions. -/
theorem allocation_accounted_everyForm :
    everyForm.exprs.countP Expr.isComputed = 11 ∧
    3 * (everyForm.count .ifThen + everyForm.count .ifElse + everyForm.count .while) = 9 ∧
    EStateM.error? (everyForm.emit {}) ≠ some .overflow ∧
    ∃ code g, everyForm.emit {} = .ok code g ∧ everyForm.Accounted code g.supply ∧
      g = ⟨11, 7, []⟩ ∧ code.length = 34 := by
  obtain ⟨_, haccounted, hroom⟩ := allocation_accounted everyForm
  have htemps : everyForm.exprs.countP Expr.isComputed = 11 := by decide +kernel
  have hlabels : 3 * (everyForm.count .ifThen + everyForm.count .ifElse + everyForm.count .while) = 9 := by
    decide +kernel
  have hstop : EStateM.error? (everyForm.emit {}) = none := by decide +kernel
  obtain ⟨code, g, hcode⟩ := EStateM.error?_eq_none.mp hstop
  have hcounts : EStateM.state (everyForm.emit {}) = ⟨11, 7, []⟩ := by decide +kernel
  obtain ⟨_, hexact⟩ := haccounted code g hcode
  rw [hcode] at hcounts
  have hlength : code.length = 34 := by
    rw [hexact.length]
    decide +kernel
  have hfree := (hroom (by rw [htemps]; decide) (by rw [hlabels]; decide)).1
  exact ⟨htemps, hlabels, hfree, code, g, hcode, hexact, hcounts, hlength⟩

end TinyPascal
