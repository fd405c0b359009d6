import TinyPascal.Code.Instr
import TinyPascal.Proofs.Code.Names
import TinyPascal.Proofs.Semantics.Store

/-!
# `Proofs.Semantics.Machine` — running code

A machine that takes one instruction after the other. It holds a stack of frames, one for each section
that is being run; a call opens a frame and the end of a section, or a `return`, closes it. Labels are
looked up in the section that the jump stands in.

A frame owns the parameters of its section and all names with the spelling of a temporary. Any other
name is a global.

## Contents
- **Sections.** `Section.find?` cuts a section out of the code of a program.
- **Frames.** `Frame`, `State`, and what single instructions do to them.
- **Runs.** `step` takes one step and `run` takes several. `Ends`: the machine, started at the main
  section, closes its last frame. `output?` computes what it has printed then.
-/

namespace TinyPascal
namespace Machine

/-! ## Sections -/

/-- A section of code: the names of its parameters, and its instructions, the last of which ends it. -/
structure Section where
  params : List String
  code : List Instr

namespace Section

/-- The instructions up to and with the end of the section. -/
def upToEnd : List Instr → List Instr
  | [] => []
  | .sectionEnd kind name :: _ => [.sectionEnd kind name]
  | i :: rest => i :: upToEnd rest

/-- The first section with the given name; the main section has none. -/
def find? (name : Option String) : List Instr → Option Section
  | [] => none
  | .sectionStart _ n params _ :: rest =>
    if n = name then some ⟨params.map Prod.fst, upToEnd rest⟩ else find? name rest
  | _ :: rest => find? name rest

end Section

/-- The place of a label in a section. -/
def labelIndex? (code : List Instr) (l : Label) : Option Nat :=
  code.findIdx? (fun i => i.defines? = some l)

/-! ## Frames and states -/

/-- One activation of a section: its instructions, the place of the next one, and its names. -/
structure Frame (V : Type) where
  code : List Instr
  pc : Nat
  names : Activation V

namespace Frame

variable {V : Type}

/-- A new frame for a section that is called with `args`. -/
def enter (s : Section) (args : List V) : Frame V where
  code := s.code
  pc := 0
  names := ⟨fun x => s.params.contains x || isTempName x, .ofArgs s.params args⟩

/-- Go on with the next instruction. -/
def next (f : Frame V) : Frame V :=
  { f with pc := f.pc + 1 }

/-- Go on behind an instruction that has set `x`. -/
def set (f : Frame V) (x : Place) (r : Option V) : Frame V :=
  { f with pc := f.pc + 1, names := f.names.set x r }

/-- Go on at a label. -/
def jump? (f : Frame V) (l : Label) : Option (Frame V) :=
  (labelIndex? f.code l).map (fun pc => { f with pc := pc })

end Frame

/-- A frame that waits at a call, and the place where it wants the result. -/
structure Caller (V : Type) where
  frame : Frame V
  target : Place

/-- The machine runs the innermost frame while its callers wait, or it has ended. -/
inductive State (V : Type) where
  | active (frame : Frame V) (callers : List (Caller V)) (world : World V)
  | ended (world : World V)

namespace State

variable {V : Type}

/-- Set a place and go on behind the instruction. -/
def set (f : Frame V) (callers : List (Caller V)) (w : World V) (x : Place) (r : Option V) : State V :=
  .active (f.set x r) callers (w.set f.names x r)

/-- Close the innermost frame and hand `r` to its caller. -/
def leave (r : Option V) (w : World V) : List (Caller V) → State V
  | [] => .ended w
  | c :: callers => set c.frame callers w c.target r

end State

/-! ## Instructions -/

section Instructions

variable {V : Type} (I : Meaning V) (program : List Instr) (f : Frame V) (callers : List (Caller V))
  (w : World V)

/-- Jump if the value of `cond` has the given truth, else go on. -/
def branch (cond : Place) (taken : Bool) (l : Label) : Option (State V) := do
  let v ← f.names.read w cond
  let b ← I.truth v
  if b = taken then return .active (← f.jump? l) callers w
  else return .active f.next callers w

/-- What an instruction of the innermost frame does. -/
def execute : Instr → Option (State V)
  | .decl _ _ | .sectionStart _ _ _ _ => none
  | .sectionEnd _ _ => some (.leave none w callers)
  | .const target value => some (.set f callers w target (some (I.literal value)))
  | .assign target arg => do
    let v ← f.names.read w arg
    return .set f callers w target (some v)
  | .binary op target left right => do
    let a ← f.names.read w left
    let b ← f.names.read w right
    let v ← I.binary op a b
    return .set f callers w target (some v)
  | .not target arg => do
    let a ← f.names.read w arg
    let v ← I.negate a
    return .set f callers w target (some v)
  | .call target callee args => do
    let vs ← args.mapM (f.names.read w)
    let s ← Section.find? (some callee) program
    if s.params.length = vs.length then return .active (.enter s vs) (⟨f, target⟩ :: callers) w
    else none
  | .print arg => do
    let v ← f.names.read w arg
    return .active f.next callers (w.print v)
  | .ret none => some (.leave none w callers)
  | .ret (some arg) => do
    let v ← f.names.read w arg
    return .leave (some v) w callers
  | .label _ => some (.active f.next callers w)
  | .goto l => do return .active (← f.jump? l) callers w
  | .ifGoto cond l => branch I f callers w cond true l
  | .ifNotGoto cond l => branch I f callers w cond false l

end Instructions

/-! ## Runs -/

section Runs

variable {V : Type} (I : Meaning V) (program : List Instr)

/-- One step. There is none if the machine has ended, or if it is stuck. -/
def step : State V → Option (State V)
  | .ended _ => none
  | .active f callers w => do
    let i ← f.code[f.pc]?
    execute I program f callers w i

/-- The state after `n` steps. -/
def run : Nat → State V → Option (State V)
  | 0, s => some s
  | n + 1, s => do run n (← step I program s)

/-- The machine, started at the main section with the globals `g`, ends: it has printed `out`, and the
    globals are `g'`. -/
def Ends (g : Env V) (out : List V) (g' : Env V) : Prop :=
  ∃ s n, Section.find? none program = some s ∧
    run I program n (.active (.enter s []) [] ⟨g, []⟩) = some (.ended ⟨g', out⟩)

/-- What is printed by a machine that ends in `n` steps. -/
def output? (n : Nat) (g : Env V) : Option (List V) := do
  let s ← Section.find? none program
  match ← run I program n (.active (.enter s []) [] ⟨g, []⟩) with
  | .ended w => some w.printed
  | .active _ _ _ => none

/-- A run that has come to an output has ended. -/
theorem ends_of_output? {n : Nat} {g : Env V} {out : List V}
    (h : output? I program n g = some out) : ∃ g', Ends I program g out g' := by
  simp only [output?, Option.bind_eq_bind, Option.bind_eq_some_iff] at h
  obtain ⟨s, hfind, t, hrun, hout⟩ := h
  cases t with
  | active f callers w => cases hout
  | ended w =>
      cases hout
      exact ⟨w.globals, s, n, hfind, hrun⟩

end Runs

/-! ## Composing runs -/

section Composing

variable {V : Type} {I : Meaning V} {program : List Instr} {s t u : State V} {w : World V}

/-- A run can be cut after any number of steps. -/
theorem run_add (m n : Nat) (s : State V) :
    run I program (m + n) s = (run I program m s).bind (run I program n) := by
  induction m generalizing s with
  | zero => rw [Nat.zero_add]; rfl
  | succ m ih =>
      rw [Nat.succ_add]
      show (step I program s).bind (run I program (m + n)) = _
      rw [show run I program (m + 1) s = (step I program s).bind (run I program m) from rfl,
        Option.bind_assoc]
      exact congrArg _ (funext ih)

/-- A machine that has ended takes no further step. -/
theorem run_ended {n : Nat} (h : run I program n (.ended w) = some t) : n = 0 ∧ t = .ended w := by
  cases n with
  | zero => cases h; exact ⟨rfl, rfl⟩
  | succ n => cases h

/-- `t` is reached from `s`. -/
def Reaches (I : Meaning V) (program : List Instr) (s t : State V) : Prop :=
  ∃ n, run I program n s = some t

namespace Reaches

theorem refl : Reaches I program s s := ⟨0, rfl⟩

theorem trans (h : Reaches I program s t) (h' : Reaches I program t u) : Reaches I program s u := by
  obtain ⟨m, hm⟩ := h
  obtain ⟨n, hn⟩ := h'
  exact ⟨m + n, by rw [run_add, hm]; exact hn⟩

theorem single (h : step I program s = some t) : Reaches I program s t :=
  ⟨1, by show (step I program s).bind (run I program 0) = _; rw [h]; rfl⟩

end Reaches

/-- **A machine that ends passes through every state that it reaches.** What is left of the run is no
    longer than the whole. -/
theorem run_of_reaches {n : Nat} (h : Reaches I program s t)
    (hn : run I program n s = some (.ended w)) :
    ∃ m ≤ n, run I program m t = some (.ended w) := by
  obtain ⟨k, hk⟩ := h
  rcases Nat.le_total k n with hle | hle
  -- `t` stands on the way to the end, or the end on the way to `t`, which is then the end itself
  · obtain ⟨m, rfl⟩ := Nat.exists_eq_add_of_le hle
    rw [run_add, hk] at hn
    exact ⟨m, Nat.le_add_left m k, hn⟩
  · obtain ⟨m, rfl⟩ := Nat.exists_eq_add_of_le hle
    rw [run_add, hn] at hk
    obtain ⟨rfl, rfl⟩ := run_ended hk
    exact ⟨0, Nat.zero_le n, rfl⟩

/-- A machine that ends, and has not ended yet, takes a step. -/
theorem step_of_run {n : Nat} {f : Frame V} {callers : List (Caller V)} {w' : World V}
    (h : run I program n (.active f callers w) = some (.ended w')) :
    ∃ t m, step I program (.active f callers w) = some t ∧ n = m + 1 ∧
      run I program m t = some (.ended w') := by
  cases n with
  | zero => cases h
  | succ m =>
      obtain ⟨t, ht, hm⟩ := Option.bind_eq_some_iff.mp h
      exact ⟨t, m, ht, rfl, hm⟩

end Composing

end Machine
end TinyPascal
