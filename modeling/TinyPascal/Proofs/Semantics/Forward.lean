import TinyPascal.Proofs.Semantics.Statements

/-!
# `Proofs.Semantics.Forward` — the machine does what the tree does

The rules about expressions and statements are put together: whatever the tree does, the code of the
tree does too. A call runs the section of its routine, so this is about **linked programs**, in which
every routine has its section.

## Contents
- **Linked programs.** `Compiled`, `Linked`, and `TameProgram` for the restrictions on the tree.
- **Sections.** `Compiled.reaches_leave`: from the first instruction of a section to the end of its
  activation.
- **Simulation.** `forward_eval`, `forward_exec` and the others: one induction over a run of the tree.
-/

namespace TinyPascal
namespace Machine

/-! ## Linked programs -/

/-- The section holds the code of a block, and its end. -/
def Compiled (b : Block) (s : Section) : Prop :=
  ∃ body supply supply' kind name,
    b.lower none supply = .ok body supply' ∧ s.code = body ++ [.sectionEnd kind name]

/-- **A linked program.** The sections of `program` are those of the routines of `p`, found under the same
    names, and the main section. -/
structure Linked (p : Program) (program : List Instr) : Prop where
  routine : ∀ {f r}, p.routine? f = some r →
    ∃ s, Section.find? (some f) program = some s ∧ s.params = r.paramNames ∧ Compiled r.body s
  missing : ∀ {f}, p.routine? f = none → Section.find? (some f) program = none
  main : ∃ s, Section.find? none program = some s ∧ s.params = [] ∧ Compiled p.main s

/-- A program whose identifiers are no temporaries, and whose expressions are settled. -/
structure TameProgram (p : Program) : Prop where
  names : ∀ x ∈ p.identifiers, isTempName x = false
  settled : p.settled = true

theorem TameProgram.body {p : Program} {b : Block} (h : TameProgram p) (hb : b ∈ p.bodies) :
    TameCode (exprsOf b.statements) (targetsOf b.statements) := by
  rw [← exprs_block, ← targets_block]
  have hnames : ∀ x ∈ b.identifiers, isTempName x = false :=
    fun x hx => h.names x (identifiers_of_mem_bodies hb x hx)
  refine ⟨fun e he => ⟨exprs_settled_of_mem_bodies h.settled hb e he, fun x hx => ?_⟩, fun x hx => ?_⟩
  · exact hnames x (List.mem_append_right _ (List.mem_flatMap.mpr ⟨e, he, hx⟩))
  · exact hnames x (List.mem_append_left _ hx)

/-- The routine of a name is one of the program. -/
theorem mem_routines_of_routine? {p : Program} {f : String} {r : Routine}
    (h : p.routine? f = some r) : r ∈ p.routines :=
  List.mem_of_find?_eq_some h

/-! ## Sections -/

variable {V : Type} {I : Meaning V} {p : Program} {program : List Instr}

/-- The code of a compiled block stands at the start of its section, outside any loop. -/
theorem Compiled.placed {b : Block} {s : Section} (h : Compiled b s) :
    ∃ body supply supply' kind name, lowerAll none b.statements supply = .ok body supply' ∧
      Placed s.code 0 body none ∧ s.code[body.length]? = some (.sectionEnd kind name) := by
  obtain ⟨body, supply, supply', kind, name, hlow, hcode⟩ := h
  have hend : labelNumbers [.sectionEnd kind name] = [] := rfl
  -- each label of the section is set once, so jumps find their targets
  have hnd : (labelNumbers s.code).Nodup := by
    rw [hcode, labelNumbers_append, hend, List.append_nil]
    exact (freshLabels_lower_block b hlow).nodup
  refine ⟨body, supply, supply', kind, name, (lower_block b).symm.trans hlow, ⟨?_, hnd, ?_⟩, ?_⟩
  · exact ⟨[], [.sectionEnd kind name], hcode, rfl⟩
  · intro l hl
    cases hl
  · rw [hcode]
    simp

/-- **Whole sections.** If the statements of a block run to their end, so does its section, and the
    activation gives back what the block gives back. -/
theorem Compiled.reaches_leave {b : Block} {s : Section} {vs : List V} {w w' : World V}
    {exit : Exit V} {σ' : Activation V} {r : Option V} (h : Compiled b s)
    (ht : TameCode (exprsOf b.statements) (targetsOf b.statements))
    (hb : AllSim I program (.ofArgs s.params vs) w b.statements exit σ' w')
    (hr : exit.result? = some r) (callers : List (Caller V)) :
    Reaches I program (.active (.enter s vs) callers w) (.leave r w' callers) := by
  obtain ⟨body, supply, supply', kind, name, hlow, hpl, hend⟩ := h.placed
  obtain ⟨τ', t, _, hland, hreach⟩ := hb none _ _ body s.code 0 _ callers ht hlow hpl .enter
  cases exit with
  | normal =>
      cases hr
      cases hland
      rw [Nat.zero_add] at hreach
      -- the end of the section closes the frame
      refine hreach.trans (.single ?_)
      rw [step_active hend]
      rfl
  | «return» value =>
      cases hr
      cases hland
      exact hreach
  | «break» => cases hr
  | «continue» => cases hr

/-- A call runs the section of its routine. -/
theorem CallSim.intro {w w' : World V} {f : String} {vs : List V} {exit : Exit V} {r : Option V}
    {σ' : Activation V} {routine : Routine} (hl : Linked p program) (ht : TameProgram p)
    (hf : p.routine? f = some routine) (hlen : routine.paramNames.length = vs.length)
    (hb : AllSim I program (.ofArgs routine.paramNames vs) w routine.body.statements exit σ' w')
    (hr : exit.result? = some r) : CallSim I program w f vs r w' := by
  obtain ⟨s, hfind, hparams, hcomp⟩ := hl.routine hf
  have htame := ht.body (body_mem_bodies (mem_routines_of_routine? hf))
  rw [← hparams] at hlen hb
  exact ⟨s, hfind, hlen, hcomp.reaches_leave htame hb hr⟩

/-! ## Simulation -/

mutual

theorem forward_eval {σ : Activation V} {w w' : World V} {e : Expr} {r : Option V}
    (hl : Linked p program) (ht : TameProgram p) :
    Eval I p σ w e r w' → EvalSim I program σ w e r w'
  | .int => .int
  | .bool => .bool
  | .var => .var
  | .paren h => .paren (forward_eval hl ht h)
  | .not h hv => .not (forward_eval hl ht h) hv
  | .binary h h' hv =>
      .binary (forward_eval hl ht h) (forward_eval hl ht h') hv
        (fun hc => world_eq_of_eval _ hc h')
  | .call hs hc => .call (forward_args hl ht hs) (forward_calls hl ht hc)

theorem forward_args {σ : Activation V} {w w' : World V} {es : List Expr} {rs : List (Option V)}
    (hl : Linked p program) (ht : TameProgram p) :
    EvalArgs I p σ w es rs w' → ArgsSim I program σ w es rs w'
  | .nil => .nil
  | .cons h hs =>
      .cons (forward_eval hl ht h) (forward_args hl ht hs) (fun hc => world_eq_of_evalArgs _ hc hs)

/-- A call is the run of the section of its callee. -/
theorem forward_calls {w w' : World V} {f : String} {vs : List V} {r : Option V}
    (hl : Linked p program) (ht : TameProgram p) :
    Calls I p w f vs r w' → CallSim I program w f vs r w'
  | .intro hf hlen hb hr => .intro hl ht hf hlen (forward_all hl ht hb) hr

/-- **Forward simulation.** The code of a statement takes the machine where the statement goes. The
    induction is over the run of the tree: each rule has its lemma. -/
theorem forward_exec {σ σ' : Activation V} {w w' : World V} {s : Stmt} {exit : Exit V}
    (hl : Linked p program) (ht : TameProgram p) :
    Exec I p σ w s exit σ' w' → ExecSim I program σ w s exit σ' w'
  | .assign h => .assign (forward_eval hl ht h)
  | .call h => .call (forward_eval hl ht h)
  | .returnNone => .returnNone
  | .returnSome h => .returnSome (forward_eval hl ht h)
  | .ifThenTrue h hv hb => .ifThenTrue (forward_eval hl ht h) hv (forward_all hl ht hb)
  | .ifThenFalse h hv => .ifThenFalse (forward_eval hl ht h) hv
  | .ifElseTrue h hv hb => .ifElseTrue (forward_eval hl ht h) hv (forward_all hl ht hb)
  | .ifElseFalse h hv hb => .ifElseFalse (forward_eval hl ht h) hv (forward_all hl ht hb)
  | .whileDone h hv => .whileDone (forward_eval hl ht h) hv
  | .whileNext h hv hb hrep hm =>
      .whileNext (forward_eval hl ht h) hv (forward_all hl ht hb) hrep (forward_exec hl ht hm)
  | .whileBreak h hv hb => .whileBreak (forward_eval hl ht h) hv (forward_all hl ht hb)
  | .whileReturn h hv hb => .whileReturn (forward_eval hl ht h) hv (forward_all hl ht hb)
  | .break => .break
  | .continue => .continue
  | .write h => .write (forward_prints hl ht h)

theorem forward_all {σ σ' : Activation V} {w w' : World V} {ss : List Stmt} {exit : Exit V}
    (hl : Linked p program) (ht : TameProgram p) :
    ExecAll I p σ w ss exit σ' w' → AllSim I program σ w ss exit σ' w'
  | .nil => .nil
  | .next h hs => .next (forward_exec hl ht h) (forward_all hl ht hs)
  | .stop h hne => .stop (forward_exec hl ht h) hne

theorem forward_prints {σ : Activation V} {w w' : World V} {es : List Expr}
    (hl : Linked p program) (ht : TameProgram p) :
    Prints I p σ w es w' → PrintSim I program σ w es w'
  | .nil => .nil
  | .cons h hs => .cons (forward_eval hl ht h) (forward_prints hl ht hs)

end

/-- What the tree of a program does, its code does too. -/
theorem ends_of_runs {g g' : Env V} {out : List V} (hl : Linked p program) (ht : TameProgram p)
    (h : p.Runs I g out g') : Ends I program g out g' := by
  obtain ⟨exit, r, σ', hb, hr⟩ := h
  obtain ⟨s, hfind, hparams, hcomp⟩ := hl.main
  have hsim := forward_all hl ht hb
  rw [← hparams] at hsim
  obtain ⟨n, hn⟩ := hcomp.reaches_leave (ht.body (main_mem_bodies p)) hsim hr []
  exact ⟨s, n, hfind, hn⟩

end Machine
end TinyPascal
