import TinyPascal.Proofs.Code.Temporaries
import TinyPascal.Proofs.Semantics.Expressions

/-!
# `Proofs.Semantics.Activations` — one frame of the machine at a time

The machine runs many frames, one above the other. This module follows a single one of them: from one of
its instructions to the next, with everything that the instruction calls taken as one step.

While a callee runs, its caller waits below it and keeps its names. When the callee is done, the caller
goes on behind the call, with the result in the place that it asked for, and with whatever the callee has
made of the globals.

## Contents
- **Steps.** `execute_cases`: an instruction stays in its frame, opens a frame or closes it.
  `owns_of_visits`: every frame that is ever run owns all temporaries.
- **Callees.** `Above`; `run_above`: the machine comes back to a caller as it was left.
- **From instruction to instruction.** `NextAt`: where a frame stands when it next comes to a given
  instruction. `Over`: one instruction, with all that it calls.
- **Straight code.** `Instr.Computes`: instructions that set a new temporary and nothing else, as those of
  expressions do. `NextAt.through`: a frame goes through straight code from its first to its last
  instruction, and keeps all names but the new temporaries.
-/

namespace TinyPascal

/-- The instruction calls a routine. -/
def Instr.isCall : Instr → Bool
  | .call _ _ _ => true
  | _ => false

namespace Machine

variable {V : Type} {I : Meaning V} {program : List Instr}

/-! ## Steps -/

theorem owns_set (σ : Activation V) (x : String) (r : Option V) : (σ.set x r).owns = σ.owns := by
  unfold Activation.set
  split <;> rfl

section Steps

variable {f : Frame V} {callers : List (Caller V)} {w : World V} {i : Instr} {t : State V}

theorem owns_jump? {f' : Frame V} {l : Label} (h : f.jump? l = some f') :
    f'.names.owns = f.names.owns := by
  obtain ⟨pc, _, rfl⟩ := Option.map_eq_some_iff.mp h
  rfl

/-- A branch goes on in the same frame, taken or not. -/
theorem branch_cases {cond : Place} {taken : Bool} {l : Label}
    (h : branch I f callers w cond taken l = some t) :
    ∃ f', t = .active f' callers w ∧ f'.names.owns = f.names.owns := by
  simp only [branch, Option.bind_eq_bind, Option.bind_eq_some_iff] at h
  obtain ⟨v, _, b, _, h⟩ := h
  split at h
  · simp only [Option.bind_eq_some_iff] at h
    obtain ⟨f', hjump, h⟩ := h
    cases h
    exact ⟨f', rfl, owns_jump? hjump⟩
  · cases h
    exact ⟨f.next, rfl, rfl⟩

/-- **What an instruction can do**: it stays in its frame, opens a frame above it, or closes it. -/
theorem execute_cases (h : execute I program f callers w i = some t) :
    (∃ f' w', t = .active f' callers w' ∧ f'.names.owns = f.names.owns) ∨
      (∃ s vs target, t = .active (.enter s vs) (⟨f, target⟩ :: callers) w) ∨
      ∃ r, t = .leave r w callers := by
  cases i with
  | decl names ty => cases h
  | sectionStart kind name params result => cases h
  | sectionEnd kind name =>
      cases h
      exact .inr (.inr ⟨none, rfl⟩)
  | const target value =>
      cases h
      exact .inl ⟨_, _, rfl, owns_set _ _ _⟩
  | assign target arg =>
      simp only [execute, Option.bind_eq_bind, Option.bind_eq_some_iff] at h
      obtain ⟨v, _, h⟩ := h
      cases h
      exact .inl ⟨_, _, rfl, owns_set _ _ _⟩
  | binary op target left right =>
      simp only [execute, Option.bind_eq_bind, Option.bind_eq_some_iff] at h
      obtain ⟨a, _, b, _, v, _, h⟩ := h
      cases h
      exact .inl ⟨_, _, rfl, owns_set _ _ _⟩
  | not target arg =>
      simp only [execute, Option.bind_eq_bind, Option.bind_eq_some_iff] at h
      obtain ⟨a, _, v, _, h⟩ := h
      cases h
      exact .inl ⟨_, _, rfl, owns_set _ _ _⟩
  | call target callee args =>
      simp only [execute, Option.bind_eq_bind, Option.bind_eq_some_iff] at h
      obtain ⟨vs, _, s, _, h⟩ := h
      split at h
      · cases h
        exact .inr (.inl ⟨s, vs, target, rfl⟩)
      · cases h
  | print arg =>
      simp only [execute, Option.bind_eq_bind, Option.bind_eq_some_iff] at h
      obtain ⟨v, _, h⟩ := h
      cases h
      exact .inl ⟨_, _, rfl, rfl⟩
  | ret arg =>
      cases arg with
      | none =>
          cases h
          exact .inr (.inr ⟨none, rfl⟩)
      | some arg =>
          simp only [execute, Option.bind_eq_bind, Option.bind_eq_some_iff] at h
          obtain ⟨v, _, h⟩ := h
          cases h
          exact .inr (.inr ⟨some v, rfl⟩)
  | label l =>
      cases h
      exact .inl ⟨_, _, rfl, rfl⟩
  | goto l =>
      simp only [execute, Option.bind_eq_bind, Option.bind_eq_some_iff] at h
      obtain ⟨f', hjump, h⟩ := h
      cases h
      exact .inl ⟨_, _, rfl, owns_jump? hjump⟩
  | ifGoto cond l =>
      obtain ⟨f', rfl, howns⟩ := branch_cases h
      exact .inl ⟨f', w, rfl, howns⟩
  | ifNotGoto cond l =>
      obtain ⟨f', rfl, howns⟩ := branch_cases h
      exact .inl ⟨f', w, rfl, howns⟩

/-- An instruction that sets a temporary sets it at once, or calls a routine and waits. -/
theorem execute_temp {target : Place} (htemp : i.temp? = some target)
    (h : execute I program f callers w i = some t) :
    (∃ r, t = .set f callers w target r) ∨
      i.isCall = true ∧ ∃ s vs, t = .active (.enter s vs) (⟨f, target⟩ :: callers) w := by
  cases i with
  | const x value =>
      cases htemp
      cases h
      exact .inl ⟨_, rfl⟩
  | binary op x left right =>
      cases htemp
      simp only [execute, Option.bind_eq_bind, Option.bind_eq_some_iff] at h
      obtain ⟨a, _, b, _, v, _, h⟩ := h
      cases h
      exact .inl ⟨_, rfl⟩
  | not x arg =>
      cases htemp
      simp only [execute, Option.bind_eq_bind, Option.bind_eq_some_iff] at h
      obtain ⟨a, _, v, _, h⟩ := h
      cases h
      exact .inl ⟨_, rfl⟩
  | call x callee args =>
      cases htemp
      simp only [execute, Option.bind_eq_bind, Option.bind_eq_some_iff] at h
      obtain ⟨vs, _, s, _, h⟩ := h
      split at h
      · cases h
        exact .inr ⟨rfl, s, vs, rfl⟩
      · cases h
  | _ => cases htemp

theorem step_eq_some (h : step I program (.active f callers w) = some t) :
    ∃ i, f.code[f.pc]? = some i ∧ execute I program f callers w i = some t :=
  Option.bind_eq_some_iff.mp h

theorem run_succ {s : State V} (h : step I program s = some t) (n : Nat) :
    run I program (n + 1) s = run I program n t := by
  show (step I program s).bind (run I program n) = _
  rw [h]
  rfl

end Steps

/-! ## Temporaries of reachable frames -/

/-- Every frame that is run, or waits, owns all temporaries. -/
def OwnsTemps : State V → Prop
  | .active f callers _ =>
      (∀ n, f.names.owns (tempName n) = true) ∧
        ∀ c ∈ callers, ∀ n, c.frame.names.owns (tempName n) = true
  | .ended _ => True

/-- A caller has its temporaries when its callee leaves. -/
theorem ownsTemps_leave {callers : List (Caller V)}
    (h : ∀ c ∈ callers, ∀ n, c.frame.names.owns (tempName n) = true) (r : Option V) (w : World V) :
    OwnsTemps (.leave r w callers) := by
  cases callers with
  | nil => exact trivial
  | cons c callers =>
      obtain ⟨hc, hrest⟩ := List.forall_mem_cons.mp h
      refine ⟨fun n => ?_, hrest⟩
      show (c.frame.names.set c.target r).owns (tempName n) = true
      rw [owns_set]
      exact hc n

theorem ownsTemps_step {s t : State V} (h : OwnsTemps s) (hstep : step I program s = some t) :
    OwnsTemps t := by
  cases s with
  | ended w => cases hstep
  | active f callers w =>
      obtain ⟨i, _, hexec⟩ := step_eq_some hstep
      rcases execute_cases hexec with ⟨f', w', rfl, howns⟩ | ⟨s, vs, target, rfl⟩ | ⟨r, rfl⟩
      · refine ⟨fun n => ?_, h.2⟩
        rw [howns]
        exact h.1 n
      · exact ⟨Agree.enter.temps, List.forall_mem_cons.mpr ⟨h.1, h.2⟩⟩
      · exact ownsTemps_leave h.2 r w

theorem ownsTemps_run {s t : State V} {n : Nat} (h : OwnsTemps s) (hrun : run I program n s = some t) :
    OwnsTemps t := by
  induction n generalizing s with
  | zero =>
      cases hrun
      exact h
  | succ n ih =>
      obtain ⟨u, hstep, hrest⟩ := Option.bind_eq_some_iff.mp hrun
      exact ih (ownsTemps_step h hstep) hrest

/-- The machine, started at the main section with the globals `g`, comes to `s`. -/
def Visits (I : Meaning V) (program : List Instr) (g : Env V) (s : State V) : Prop :=
  ∃ main, Section.find? none program = some main ∧
    Reaches I program (.active (.enter main []) [] ⟨g, []⟩) s

/-- **Every frame that is ever run owns all temporaries.** -/
theorem owns_of_visits {g : Env V} {f : Frame V} {callers : List (Caller V)} {w : World V}
    (h : Visits I program g (.active f callers w)) (n : Nat) : f.names.owns (tempName n) = true := by
  obtain ⟨main, _, m, hrun⟩ := h
  have hstart : OwnsTemps (.active (.enter main []) [] ⟨g, []⟩) :=
    ⟨Agree.enter.temps, fun c hc => absurd hc List.not_mem_nil⟩
  exact (ownsTemps_run hstart hrun).1 n

/-! ## Callees -/

/-- The machine runs something above the caller `c`, which waits over `callers`. -/
def Above (c : Caller V) (callers : List (Caller V)) : State V → Prop
  | .active _ stack _ => ∃ top, stack = top ++ c :: callers
  | .ended _ => False

section Callees

variable {c : Caller V} {callers : List (Caller V)} {s t : State V}

theorem not_above_active {f : Frame V} {w : World V} : ¬ Above c callers (.active f callers w) := by
  rintro ⟨top, hstack⟩
  have hlength := congrArg List.length hstack
  simp only [List.length_append, List.length_cons] at hlength
  omega

/-- A step above a caller stays above it, or goes back to it and hands over a result. -/
theorem step_above (h : Above c callers s) (hstep : step I program s = some t) :
    Above c callers t ∨ ∃ r w, t = .set c.frame callers w c.target r := by
  cases s with
  | ended w => cases hstep
  | active f stack w =>
      obtain ⟨top, rfl⟩ := h
      obtain ⟨i, _, hexec⟩ := step_eq_some hstep
      rcases execute_cases hexec with ⟨f', w', rfl, _⟩ | ⟨s, vs, target, rfl⟩ | ⟨r, rfl⟩
      · exact .inl ⟨top, rfl⟩
      · exact .inl ⟨⟨f, target⟩ :: top, rfl⟩
      · cases top with
        | nil => exact .inr ⟨r, w, rfl⟩
        | cons d top => exact .inl ⟨top, rfl⟩

/-- **The machine comes back to a caller as it was left.** The induction is on the number of steps: as
    long as the machine is above the caller, it does not touch it. -/
theorem run_above {n : Nat} (h : Above c callers s) (hrun : run I program n s = some t)
    (ht : ¬ Above c callers t) :
    ∃ m ≤ n, ∃ r w, run I program m s = some (.set c.frame callers w c.target r) ∧
      ∀ j < m, ∀ u, run I program j s = some u → Above c callers u := by
  induction n generalizing s with
  | zero =>
      cases hrun
      exact absurd h ht
  | succ n ih =>
      obtain ⟨s₁, hstep, hrest⟩ := Option.bind_eq_some_iff.mp hrun
      have hsucc := run_succ hstep
      rcases step_above h hstep with habove | ⟨r, w, rfl⟩
      · obtain ⟨m, hm, r, w, hback, hbefore⟩ := ih habove hrest
        refine ⟨m + 1, by omega, r, w, (hsucc m).trans hback, fun j hj u hu => ?_⟩
        cases j with
        | zero =>
            cases hu
            exact h
        | succ j => exact hbefore j (by omega) u ((hsucc j).symm.trans hu)
      · refine ⟨1, by omega, r, w, hsucc 0, fun j hj u hu => ?_⟩
        obtain rfl : j = 0 := by omega
        cases hu
        exact h

end Callees

/-! ## From instruction to instruction -/

section Instructions

variable {callers : List (Caller V)} {f f' f'' : Frame V} {w w' w'' : World V} {pc : Nat}

/-- The frame `f`, over `callers` and in the world `w`, comes to the instruction at `pc` the next time as
    `f'` and in the world `w'`. -/
def NextAt (I : Meaning V) (program : List Instr) (callers : List (Caller V)) (f : Frame V)
    (w : World V) (pc : Nat) (f' : Frame V) (w' : World V) : Prop :=
  f'.pc = pc ∧ ∃ n, run I program n (.active f callers w) = some (.active f' callers w') ∧
    ∀ m < n, ∀ g v, run I program m (.active f callers w) = some (.active g callers v) → g.pc ≠ pc

/-- The frame `f` executes one instruction, with all that it calls, and then stands as `f'`. -/
def Over (I : Meaning V) (program : List Instr) (callers : List (Caller V)) (f : Frame V)
    (w : World V) (f' : Frame V) (w' : World V) : Prop :=
  ∃ n, run I program (n + 1) (.active f callers w) = some (.active f' callers w') ∧
    ∀ m < n, ∀ g v, run I program (m + 1) (.active f callers w) ≠ some (.active g callers v)

namespace NextAt

theorem here : NextAt I program callers f w f.pc f w :=
  ⟨rfl, 0, rfl, fun m hm => absurd hm (Nat.not_lt_zero m)⟩

/-- There is one next time. -/
theorem unique (h : NextAt I program callers f w pc f' w')
    (h' : NextAt I program callers f w pc f'' w'') : f' = f'' ∧ w' = w'' := by
  obtain ⟨hpc, n, hn, hfirst⟩ := h
  obtain ⟨hpc', n', hn', hfirst'⟩ := h'
  rcases Nat.lt_trichotomy n n' with hlt | rfl | hlt
  · exact absurd hpc (hfirst' n hlt f' w' hn)
  · rw [hn] at hn'
    cases hn'
    exact ⟨rfl, rfl⟩
  · exact absurd hpc' (hfirst n' hlt f'' w'' hn')

/-- **What comes next does not change while an instruction is executed**, unless the frame stands there
    already. -/
theorem over_iff {g : Frame V} {v : World V} (h : Over I program callers f w g v) (hne : f.pc ≠ pc) :
    NextAt I program callers f w pc f' w' ↔ NextAt I program callers g v pc f' w' := by
  obtain ⟨n, hover, hbetween⟩ := h
  have hadd : ∀ m, run I program (n + 1 + m) (.active f callers w) =
      run I program m (.active g callers v) := by
    intro m
    rw [run_add, hover]
    rfl
  constructor
  · rintro ⟨hpc, l, hrun, hfirst⟩
    -- the frame is back before it comes to `pc`
    have hlate : n + 1 ≤ l := by
      refine Nat.le_of_not_lt (fun hlt => ?_)
      cases l with
      | zero =>
          cases hrun
          exact hne hpc
      | succ l => exact hbetween l (by omega) f' w' hrun
    obtain ⟨m, rfl⟩ := Nat.exists_eq_add_of_le hlate
    refine ⟨hpc, m, (hadd m).symm.trans hrun, fun j hj g' v' hj' => ?_⟩
    exact hfirst (n + 1 + j) (by omega) g' v' ((hadd j).trans hj')
  · rintro ⟨hpc, m, hrun, hfirst⟩
    refine ⟨hpc, n + 1 + m, (hadd m).trans hrun, fun j hj g' v' hj' => ?_⟩
    cases j with
    | zero =>
        cases hj'
        exact hne
    | succ j =>
        by_cases hlt : j < n
        · exact absurd hj' (hbetween j hlt g' v')
        · obtain ⟨d, rfl⟩ : ∃ d, j = n + d := ⟨j - n, by omega⟩
          have hd := hadd d
          rw [show n + 1 + d = n + d + 1 by omega] at hd
          exact hfirst d (by omega) g' v' (hd.symm.trans hj')

/-- **An instruction that sets a temporary**, with all that it calls: the frame goes on behind it and has
    set the temporary; only a call can change the world. -/
theorem exists_over {i : Instr} {target : Place} (hi : f.code[f.pc]? = some i)
    (htemp : i.temp? = some target) (hne : f.pc ≠ pc)
    (h : NextAt I program callers f w pc f' w') :
    ∃ r v, Over I program callers f w (f.set target r) (v.set f.names target r) ∧
      (i.isCall = false → v = w) := by
  obtain ⟨hpc, n, hrun, _⟩ := h
  cases n with
  | zero =>
      cases hrun
      exact absurd hpc hne
  | succ n =>
      obtain ⟨s, hstep, hrest⟩ := Option.bind_eq_some_iff.mp hrun
      have hsucc := run_succ hstep
      rw [step_active hi] at hstep
      rcases execute_temp htemp hstep with ⟨r, rfl⟩ | ⟨hcall, sec, vs, rfl⟩
      · exact ⟨r, w, ⟨0, hsucc 0, fun m hm => absurd hm (Nat.not_lt_zero m)⟩, fun _ => rfl⟩
      · -- the callee runs above the frame until it hands over its result
        have habove : Above ⟨f, target⟩ callers
            (.active (Frame.enter sec vs) (⟨f, target⟩ :: callers) w) := ⟨[], rfl⟩
        obtain ⟨m, _, r, v, hback, hbefore⟩ := run_above habove hrest not_above_active
        refine ⟨r, v, ⟨m, (hsucc m).trans hback, fun j hj g u hu => ?_⟩, fun hno => ?_⟩
        · exact not_above_active (hbefore j hj _ ((hsucc j).symm.trans hu))
        · rw [hcall] at hno
          cases hno

end NextAt

end Instructions

end Machine

/-! ## Straight code -/

/-- The instruction sets a temporary numbered above `k`; it calls a routine only if `calls` is set. -/
structure Instr.Computes (k : Nat) (calls : Bool) (i : Instr) : Prop where
  temp : ∃ j, k < j ∧ i.temp? = some (tempName j)
  call : i.isCall = true → calls = true

/-- What computes behind later temporaries computes behind earlier ones. -/
theorem Instr.Computes.mono {k k' : Nat} {calls calls' : Bool} {i : Instr} (h : i.Computes k calls)
    (hk : k' ≤ k) (hcalls : calls = true → calls' = true) : i.Computes k' calls' := by
  obtain ⟨⟨j, hj, htemp⟩, hcall⟩ := h
  exact ⟨⟨j, Nat.lt_of_le_of_lt hk hj, htemp⟩, fun hi => hcalls (hcall hi)⟩

mutual

/-- The code of an expression sets new temporaries, and calls only what the expression calls. -/
theorem computes_lower : ∀ (e : Expr) (k : Nat), ∀ i ∈ (e.lower k).code, i.Computes k e.hasCall
  | .int _ _, k | .bool _ _, k => by
      intro i hi
      rw [List.mem_singleton.mp hi]
      exact ⟨⟨k + 1, Nat.lt_succ_self k, rfl⟩, fun h => by cases h⟩
  | .var _ _, _ => fun i hi => absurd hi List.not_mem_nil
  | .paren inner _, k => computes_lower inner k
  | .not operand _, k => by
      simp only [Expr.lower, List.forall_mem_append, List.forall_mem_singleton]
      have hk := Nat.lt_succ_of_le (le_temps_lower operand k)
      exact ⟨computes_lower operand k, ⟨_, hk, rfl⟩, fun h => by cases h⟩
  | .binary _ left right _, k => by
      simp only [Expr.lower, Expr.hasCall, List.forall_mem_append, List.forall_mem_singleton]
      have hl := le_temps_lower left k
      have hr := le_temps_lower right (left.lower k).temps
      refine ⟨⟨fun i hi => ?_, fun i hi => ?_⟩, ⟨_, by omega, rfl⟩, fun h => by cases h⟩
      · exact (computes_lower left k i hi).mono (Nat.le_refl k) (fun h => by rw [h, Bool.true_or])
      · exact (computes_lower right _ i hi).mono hl (fun h => by rw [h, Bool.or_true])
  | .call _ args _, k => by
      simp only [Expr.lower, List.forall_mem_append, List.forall_mem_singleton]
      have hk := Nat.lt_succ_of_le (le_temps_lowerArgs args k)
      refine ⟨fun i hi => ?_, ⟨_, hk, rfl⟩, fun _ => rfl⟩
      exact (computes_lowerArgs args k i hi).mono (Nat.le_refl k) (fun _ => rfl)

/-- The code of arguments computes, and has calls only if they have. -/
theorem computes_lowerArgs : ∀ (es : List Expr) (k : Nat),
    ∀ i ∈ (lowerArgs es k).code, i.Computes k (anyCall es)
  | [], _ => fun i hi => absurd hi List.not_mem_nil
  | e :: es, k => by
      simp only [lowerArgs, anyCall, List.forall_mem_append]
      refine ⟨fun i hi => ?_, fun i hi => ?_⟩
      · exact (computes_lower e k i hi).mono (Nat.le_refl k) (fun h => by rw [h, Bool.true_or])
      · exact (computes_lowerArgs es _ i hi).mono (le_temps_lower e k)
          (fun h => by rw [h, Bool.or_true])

end

namespace Machine

/-- **A frame goes through straight code from its first to its last instruction.** If it comes to an
    instruction behind the code, it has come to the end of the code before, and has kept all names but
    the new temporaries. Only calls change the world. -/
theorem NextAt.through {V : Type} {I : Meaning V} {program a : List Instr}
    {callers : List (Caller V)} {f f' : Frame V} {w w' : World V} {pc k : Nat} {calls : Bool}
    (hcode : CodeAt f.code f.pc a) (ha : ∀ i ∈ a, i.Computes k calls)
    (hown : ∀ n, f.names.owns (tempName n) = true) (hpc : f.pc + a.length ≤ pc)
    (h : NextAt I program callers f w pc f' w') :
    ∃ f₁ w₁, NextAt I program callers f w (f.pc + a.length) f₁ w₁ ∧
      NextAt I program callers f₁ w₁ pc f' w' ∧ f₁.code = f.code ∧ Keeps k f.names f₁.names ∧
      (calls = false → w₁ = w) := by
  induction a generalizing f w with
  | nil => exact ⟨f, w, .here, h, rfl, .refl, fun _ => rfl⟩
  | cons i a ih =>
      obtain ⟨⟨⟨j, hj, htemp⟩, hcall⟩, hrest⟩ := List.forall_mem_cons.mp ha
      rw [List.length_cons] at hpc ⊢
      obtain ⟨r, v, hover, hworld⟩ := h.exists_over hcode.head htemp (by omega)
      -- the frame owns the temporary, so setting it does not change the world
      have hset : v.set f.names (tempName j) r = v := if_pos (hown j)
      rw [hset] at hover
      have hkeeps : Keeps k f.names (f.set (tempName j) r).names := .set_temp hj
      have hown' : ∀ n, (f.set (tempName j) r).names.owns (tempName n) = true :=
        fun n => (hkeeps.owns _).trans (hown n)
      have hpc' : (f.set (tempName j) r).pc + a.length = f.pc + (a.length + 1) := by
        show f.pc + 1 + a.length = f.pc + (a.length + 1)
        omega
      obtain ⟨f₁, w₁, hto, hfrom, hsame, hkeeps₁, hw₁⟩ := ih (f := f.set (tempName j) r) (w := v)
        hcode.tail hrest hown' (by omega) ((over_iff hover (by omega)).mp h)
      rw [hpc'] at hto
      refine ⟨f₁, w₁, (over_iff hover (by omega)).mpr hto, hfrom, hsame,
        hkeeps.trans hkeeps₁ (Nat.le_refl k), fun hno => (hw₁ hno).trans (hworld ?_)⟩
      rw [hno] at hcall
      exact Bool.eq_false_iff.mpr (fun hi => Bool.false_ne_true (hcall hi))

end Machine
end TinyPascal
