import TinyPascal.Proofs.Code.Generator
import TinyPascal.Proofs.Code.Jumps
import TinyPascal.Proofs.Code.StrayJumps

/-!
# `Proofs.Code.Numbering` — one generator for many requests

A generator can be asked for temporaries, for labels and for the code of trees, in any order, and goes on
after a tree that has no code. This module shows that **no name is handed out twice in a whole run**: each
request takes its numbers behind those that were taken before it, and a request that fails gives none
back. No request leaves a loop open for the next one. A run ends where a count is full, and a count is full
exactly where 32 bits do not hold the names that the requests ask for.

## Contents
- **Requests.** `GenRequest`, `GenAnswer`; `GenRequest.answer` counts without a limit.
  `Generator.step`, `Generator.run`.
- **Steps.** `GenStep.Orderly`: what holds of every step. `NewNames s s' temps labels`: the names that are
  given out while the supply goes from `s` to `s'`. `step_cases`, `orderly_step`, `newNames_answer`.
- **Runs.** `newNames_run`, `orderly_run`, `answers_all_of_fits`, `Generator.Reachable`,
  `generator_names_distinct`.
-/

namespace TinyPascal

/-! ## Requests -/

/-- What a generator is asked for. -/
inductive GenRequest where
  | temp
  | label (stem : String)
  | code (tree : Program)

/-- What a generator answers. -/
inductive GenAnswer where
  | temp (name : Place)
  | label (name : Label)
  | code (instrs : List Instr)
  | stray (jump : StrayJump)
  /-- A count is full; there are no further answers. -/
  | overflow
deriving DecidableEq, Repr

namespace GenAnswer

/-- The answer to a request for code. -/
def ofOutcome : Except StrayJump (List Instr) → GenAnswer
  | .ok instrs => .code instrs
  | .error jump => .stray jump

theorem ofOutcome_eq_code {outcome : Except StrayJump (List Instr)} {instrs : List Instr} :
    ofOutcome outcome = .code instrs ↔ outcome = .ok instrs := by
  cases outcome <;> simp [ofOutcome]

theorem ofOutcome_eq_stray {outcome : Except StrayJump (List Instr)} {jump : StrayJump} :
    ofOutcome outcome = .stray jump ↔ outcome = .error jump := by
  cases outcome <;> simp [ofOutcome]

/-- The answer of a generator that stopped. -/
def ofStop : GenStop → GenAnswer
  | .stray jump => .stray jump
  | .overflow => .overflow

/-- The temporaries that an answer gives out: by name, or set in its code. -/
def temps : GenAnswer → List Place
  | .temp name => [name]
  | .code instrs => tempsOf instrs
  | .label _ | .stray _ | .overflow => []

/-- The labels that an answer gives out. -/
def labels : GenAnswer → List Label
  | .label name => [name]
  | .code instrs => labelsOf instrs
  | .temp _ | .stray _ | .overflow => []

end GenAnswer

namespace GenRequest

/-- What a generator does with a request. -/
def emit : GenRequest → Emit GenAnswer
  | .temp => return .temp (← Emit.temp)
  | .label stem => return .label (← Emit.label stem)
  | .code tree => return .code (← tree.emit)

/-- What lowering does with a request, where nothing limits the counts. -/
def lower : GenRequest → Gen GenAnswer
  | .temp => return .temp (← modifyGet Supply.temp)
  | .label stem => return .label (← Gen.label stem)
  | .code tree => return .code (← tree.lower)

/-- The answer to a request, and the names handed out behind it, where nothing limits the counts. -/
def answer (s : Supply) (r : GenRequest) : GenAnswer × Supply :=
  match r.lower s with
  | .ok answer s' => (answer, s')
  | .error jump s' => (.stray jump, s')

@[simp] theorem answer_temp (s : Supply) :
    GenRequest.temp.answer s = (.temp s.temp.1, s.temp.2) := rfl

@[simp] theorem answer_label (s : Supply) (stem : String) :
    (GenRequest.label stem).answer s = (.label (s.label stem).1, (s.label stem).2) := rfl

@[simp] theorem answer_code (s : Supply) (tree : Program) :
    (GenRequest.code tree).answer s =
      (.ofOutcome (tree.codeWith s).1, (tree.codeWith s).2) := by
  unfold answer Program.codeWith
  cases hlower : tree.lower s with
  | ok code s' =>
      have hrun : (GenRequest.code tree).lower s = .ok (.code code) s' := EStateM.bind_of_ok hlower
      rw [hrun]
      rfl
  | error jump s' =>
      have hrun : (GenRequest.code tree).lower s = .error jump s' := EStateM.bind_of_error hlower
      rw [hrun]
      rfl

/-- A full count is an answer of counts that have a limit. -/
theorem answer_ne_overflow (s : Supply) (r : GenRequest) : (r.answer s).1 ≠ .overflow := by
  cases r with
  | temp => nofun
  | label stem => nofun
  | code tree =>
      rw [answer_code]
      cases (tree.codeWith s).1 <;> nofun

/-- The names that requests ask for, one after the other. -/
def supplyAfter (s : Supply) : List GenRequest → Supply
  | [] => s
  | r :: more => supplyAfter (r.answer s).2 more

end GenRequest

/-- A request, its answer, and the generator before and after it. -/
structure GenStep where
  request : GenRequest
  before : Generator
  answer : GenAnswer
  after : Generator

namespace Generator

/-- Answer a request. -/
def step (g : Generator) (r : GenRequest) : GenStep :=
  match r.emit g with
  | .ok answer g' => ⟨r, g, answer, g'⟩
  | .error stop g' => ⟨r, g, .ofStop stop, g'⟩

/-- Answer requests one after the other, until a count is full. -/
def run (g : Generator) : List GenRequest → List GenStep
  | [] => []
  | r :: more =>
    if (g.step r).answer = .overflow then [g.step r]
    else g.step r :: (g.step r).after.run more

end Generator

/-! ## Steps -/

/-- **What holds of every step.** -/
structure GenStep.Orderly (step : GenStep) : Prop where
  /-- The counts of names do not go down. -/
  grows : step.before.supply ≤ step.after.supply
  /-- No loop stays open. -/
  closed : step.after.loops = []
  /-- A tree has the code that `codeWith` gives it from the names handed out so far. -/
  agrees : ∀ tree, step.request = .code tree →
    step.answer = .ofOutcome (tree.codeWith step.before.supply).1 ∧
      step.after.supply = (tree.codeWith step.before.supply).2
  /-- Code sets the temporaries that were counted while it was made, in order. -/
  temps : ∀ instrs, step.answer = .code instrs →
    tempsOf instrs = tempNames step.before.supply.temps
      (step.after.supply.temps - step.before.supply.temps)
  /-- A tree is turned down exactly if it has a stray jump, and the first one is reported. -/
  stray : ∀ tree jump, step.request = .code tree →
    (step.answer = .stray jump ↔ tree.strays.head? = some jump)

/-- **New names.** What is given out while the supply goes from `s` to `s'`: temporaries with rising
    numbers in between, and labels with numbers in between, none of them twice. -/
structure NewNames (s s' : Supply) (temps : List Place) (labels : List Label) : Prop where
  le : s ≤ s'
  temps : ∃ numbers : List Nat, numbers.Pairwise (· < ·) ∧
    (∀ n ∈ numbers, s.temps < n ∧ n ≤ s'.temps) ∧ temps = numbers.map tempName
  nodup : (labels.map labelNumber).Nodup
  range : ∀ l ∈ labels, s.labels < labelNumber l ∧ labelNumber l ≤ s'.labels

namespace NewNames

variable {s s₁ s' : Supply} {ts ts' : List Place} {ls ls' : List Label}

/-- Names may be taken and not given out. -/
theorem nothing (h : s ≤ s') : NewNames s s' [] [] :=
  ⟨h, ⟨[], .nil, by simp, rfl⟩, .nil, by simp⟩

/-- The names handed out over two stretches of counts are those of both. -/
theorem append (h : NewNames s s₁ ts ls) (h' : NewNames s₁ s' ts' ls') :
    NewNames s s' (ts ++ ts') (ls ++ ls') := by
  obtain ⟨hle, ⟨ns, hns, hbounds, rfl⟩, hnodup, hrange⟩ := h
  obtain ⟨hle', ⟨ns', hns', hbounds', rfl⟩, hnodup', hrange'⟩ := h'
  refine ⟨Supply.le_trans hle hle', ⟨ns ++ ns', ?_, ?_, List.map_append.symm⟩, ?_, ?_⟩
  · refine List.pairwise_append.mpr ⟨hns, hns', fun m hm n hn => ?_⟩
    have := hbounds m hm
    have := hbounds' n hn
    omega
  · intro n hn
    have := hle.1
    have := hle'.1
    rcases List.mem_append.mp hn with hn | hn
    · have := hbounds n hn
      omega
    · have := hbounds' n hn
      omega
  · rw [List.map_append]
    refine List.nodup_append.mpr ⟨hnodup, hnodup', fun m hm n hn => ?_⟩
    obtain ⟨l, hl, rfl⟩ := List.mem_map.mp hm
    obtain ⟨l', hl', rfl⟩ := List.mem_map.mp hn
    have := hrange l hl
    have := hrange' l' hl'
    omega
  · intro l hl
    have := hle.2
    have := hle'.2
    rcases List.mem_append.mp hl with hl | hl
    · have := hrange l hl
      omega
    · have := hrange' l hl
      omega

/-- The next temporary. -/
theorem temp (s : Supply) : NewNames s s.temp.2 [s.temp.1] [] := by
  refine ⟨⟨Nat.le_succ _, Nat.le_refl _⟩, ⟨[s.temps + 1], ?_, ?_, rfl⟩, .nil, by simp⟩
  · exact List.pairwise_singleton _ _
  · intro n hn
    rw [List.mem_singleton] at hn
    subst hn
    exact ⟨Nat.lt_succ_self _, Nat.le_refl _⟩

/-- The next label. -/
theorem label {stem : String} (h : IsStem stem) (s : Supply) :
    NewNames s (s.label stem).2 [] [(s.label stem).1] := by
  have hnumber : labelNumber (s.label stem).1 = s.labels + 1 := labelNumber_labelName h _
  refine ⟨⟨Nat.le_refl _, Nat.le_succ _⟩, ⟨[], .nil, by simp, rfl⟩, ?_, ?_⟩
  · exact List.nodup_singleton _
  · intro l hl
    rw [List.mem_singleton] at hl
    subst hl
    rw [hnumber]
    exact ⟨Nat.lt_succ_self _, Nat.le_refl _⟩

/-- The names in the code of a program. -/
theorem code {p : Program} {instrs : List Instr} (h : p.lower s = .ok instrs s') :
    NewNames s s' (tempsOf instrs) (labelsOf instrs) := by
  have htemps := takesTemps_lower_program h
  have hlabels := (closed_lower_program h).1
  have hcount := htemps.count
  refine ⟨⟨by omega, hlabels.le⟩, ⟨_, ?_, ?_, htemps.names⟩, ?_, fun l hl => hlabels.number hl⟩
  · exact List.pairwise_lt_range'
  · intro n hn
    rw [List.mem_range'_1] at hn
    omega
  · rw [← labelNumbers_eq]
    exact hlabels.nodup

/-- No temporary is handed out twice. -/
theorem nodup_temps (h : NewNames s s' ts ls) : ts.Nodup := by
  obtain ⟨ns, hns, _, rfl⟩ := h.temps
  have hnodup : ns.Nodup := hns.imp Nat.ne_of_lt
  exact hnodup.map (fun _ _ => tempName_inj)

theorem nodup_labels (h : NewNames s s' ts ls) : ls.Nodup :=
  h.nodup.of_map labelNumber

end NewNames

/-- A request takes its names behind those that were handed out before. -/
theorem newNames_answer (r : GenRequest) (h : ∀ stem, r = .label stem → IsStem stem) (s : Supply) :
    NewNames s (r.answer s).2 (r.answer s).1.temps (r.answer s).1.labels := by
  cases r with
  | temp => exact .temp s
  | label stem => exact .label (h stem rfl) s
  | code tree =>
      rw [GenRequest.answer_code]
      cases hcode : tree.codeWith s with
      | mk outcome s' =>
          cases outcome with
          | ok instrs => exact .code (codeWith_eq_ok hcode)
          | error jump =>
              have hle := le_codeWith tree s
              rw [hcode] at hle
              exact .nothing hle

/-- A request gives no names back. -/
theorem le_answer (r : GenRequest) (s : Supply) : s ≤ (r.answer s).2 := by
  cases r with
  | temp => exact (NewNames.temp s).le
  | label stem => exact ⟨Nat.le_refl _, Nat.le_succ _⟩
  | code tree =>
      rw [GenRequest.answer_code]
      exact le_codeWith tree s

/-- Counts never go down over requests. -/
theorem le_supplyAfter (requests : List GenRequest) (s : Supply) :
    s ≤ GenRequest.supplyAfter s requests := by
  induction requests generalizing s with
  | nil => exact s.le_refl
  | cons r more ih => exact Supply.le_trans (le_answer r s) (ih _)

/-- A generator does with a request what lowering does with it. -/
theorem implements_request (r : GenRequest) : ∃ n m, Implements [] n m r.emit r.lower := by
  cases r with
  | temp => exact ⟨_, _, implements_temp.bind fun _ => .pure _⟩
  | label stem => exact ⟨_, _, (implements_label stem).bind fun _ => .pure _⟩
  | code tree => exact ⟨_, _, (implements_emit_program tree).bind fun _ => .pure _⟩

section Steps

variable {g : Generator} (hg : g.loops = []) (r : GenRequest)

@[simp] theorem step_request : (g.step r).request = r := by
  unfold Generator.step
  cases r.emit g <;> rfl

@[simp] theorem step_before : (g.step r).before = g := by
  unfold Generator.step
  cases r.emit g <;> rfl

include hg

/-- **A step gives the answer that has no limit, and leaves no loop open; or a count is full**, where 32 bits
    do not hold the names that the request asks for. -/
theorem step_cases :
    ((g.step r).answer = (r.answer g.supply).1 ∧ (g.step r).after.supply = (r.answer g.supply).2 ∧
      (g.step r).after.loops = []) ∨
    ((g.step r).answer = .overflow ∧ ¬ (r.answer g.supply).2.Fits) := by
  obtain ⟨n, m, himpl⟩ := implements_request r
  have hsame := himpl.same g hg
  unfold Generator.step GenRequest.answer
  generalize r.emit g = x at hsame ⊢
  generalize r.lower g.supply = y at hsame ⊢
  cases hsame with
  | ok answer g' hloops => exact .inl ⟨rfl, rfl, hloops⟩
  | stray jump g' hloops => exact .inl ⟨rfl, rfl, hloops⟩
  | full g' _ hfull =>
      refine .inr ⟨rfl, fun hfits => hfull ?_⟩
      cases y <;> exact hfits

theorem step_overflow_iff : (g.step r).answer = .overflow ↔ ¬ (r.answer g.supply).2.Fits := by
  rcases step_cases hg r with ⟨hanswer, hsupply, -⟩ | ⟨hanswer, hfull⟩
  · rw [hanswer, ← hsupply]
    constructor
    · intro h
      exact absurd h (GenRequest.answer_ne_overflow _ r)
    · intro h
      exact absurd (g.step r).after.supply_fits h
  · exact ⟨fun _ => hfull, fun _ => hanswer⟩

variable {r} in
/-- A step that no full count stops. -/
theorem step_of_ne_overflow (h : (g.step r).answer ≠ .overflow) :
    (g.step r).answer = (r.answer g.supply).1 ∧ (g.step r).after.supply = (r.answer g.supply).2 ∧
      (g.step r).after.loops = [] := by
  rcases step_cases hg r with hstep | ⟨hanswer, -⟩
  · exact hstep
  · exact absurd hanswer h

variable {r} in
theorem orderly_step (h : (g.step r).answer ≠ .overflow) : (g.step r).Orderly := by
  obtain ⟨hanswer, hsupply, hloops⟩ := step_of_ne_overflow hg h
  refine ⟨?_, hloops, ?_, ?_, ?_⟩
  · rw [step_before, hsupply]
    exact le_answer r g.supply
  · intro tree htree
    rw [step_request] at htree
    subst htree
    rw [step_before, hanswer, hsupply, GenRequest.answer_code]
    exact ⟨rfl, rfl⟩
  · intro instrs hcode
    rw [step_before, hsupply]
    rw [hanswer] at hcode
    cases r with
    | temp => cases hcode
    | label stem => cases hcode
    | code tree =>
        rw [GenRequest.answer_code] at hcode ⊢
        have hpair : tree.codeWith g.supply = (.ok instrs, (tree.codeWith g.supply).2) :=
          Prod.ext (GenAnswer.ofOutcome_eq_code.mp hcode) rfl
        have htemps := takesTemps_lower_program (codeWith_eq_ok hpair)
        have hcount := htemps.count
        rw [htemps.names, hcount, Nat.add_sub_cancel_left]
  · intro tree jump htree
    rw [step_request] at htree
    subst htree
    rw [hanswer, GenRequest.answer_code, GenAnswer.ofOutcome_eq_stray, codeWith_eq_error_iff]

/-- A step gives out new names; a step that finds a full count gives out none. -/
theorem newNames_step (h : ∀ stem, r = .label stem → IsStem stem) :
    ∃ s', NewNames g.supply s' (g.step r).answer.temps (g.step r).answer.labels ∧
      ((g.step r).answer ≠ .overflow → s' = (g.step r).after.supply) := by
  rcases step_cases hg r with ⟨hanswer, hsupply, -⟩ | ⟨hanswer, -⟩
  · refine ⟨(r.answer g.supply).2, ?_, fun _ => hsupply.symm⟩
    rw [hanswer]
    exact newNames_answer r h g.supply
  · refine ⟨g.supply, ?_, fun h => absurd hanswer h⟩
    rw [hanswer]
    exact .nothing g.supply.le_refl

end Steps

/-! ## Runs -/

section Runs

variable {g : Generator} (hg : g.loops = []) (requests : List GenRequest)

include hg

/-- The names of a run are new. The induction is over the requests: each step takes its names behind
    those of the steps before it. -/
theorem newNames_run (h : ∀ stem, .label stem ∈ requests → IsStem stem) :
    ∃ s', NewNames g.supply s' ((g.run requests).flatMap (·.answer.temps))
      ((g.run requests).flatMap (·.answer.labels)) := by
  induction requests generalizing g with
  | nil => exact ⟨g.supply, .nothing g.supply.le_refl⟩
  | cons r more ih =>
      obtain ⟨s₁, hstep, hsupply⟩ :=
        newNames_step hg r (fun stem hr => h stem (hr ▸ List.mem_cons_self))
      unfold Generator.run
      by_cases hfull : (g.step r).answer = .overflow
      · rw [if_pos hfull, List.flatMap_singleton, List.flatMap_singleton]
        exact ⟨s₁, hstep⟩
      · rw [if_neg hfull, List.flatMap_cons, List.flatMap_cons]
        cases hsupply hfull
        obtain ⟨s', hmore⟩ := ih (step_of_ne_overflow hg hfull).2.2
          (fun stem hstem => h stem (List.mem_cons_of_mem _ hstem))
        exact ⟨s', hstep.append hmore⟩

/-- What holds of each step from a generator without open loops holds of all steps of a run, since no step
    leaves a loop open. -/
theorem forall_run {P : GenStep → Prop}
    (hP : ∀ (g : Generator) (r : GenRequest), g.loops = [] → P (g.step r)) :
    ∀ step ∈ g.run requests, P step := by
  induction requests generalizing g with
  | nil => exact nofun
  | cons r more ih =>
      unfold Generator.run
      by_cases hfull : (g.step r).answer = .overflow
      · rw [if_pos hfull]
        exact List.forall_mem_singleton.mpr (hP g r hg)
      · rw [if_neg hfull]
        exact List.forall_mem_cons.mpr ⟨hP g r hg, ih (step_of_ne_overflow hg hfull).2.2⟩

/-- **All requests are answered exactly if 32 bits hold the names that they ask for.** -/
theorem run_no_overflow_iff :
    (∀ step ∈ g.run requests, step.answer ≠ .overflow) ↔
      (GenRequest.supplyAfter g.supply requests).Fits := by
  induction requests generalizing g with
  | nil => exact ⟨fun _ => g.supply_fits, fun _ => nofun⟩
  | cons r more ih =>
      unfold Generator.run GenRequest.supplyAfter
      by_cases hfull : (g.step r).answer = .overflow
      · rw [if_pos hfull]
        have hnot := (step_overflow_iff hg r).mp hfull
        constructor
        · intro h
          exact absurd hfull (h _ List.mem_cons_self)
        · intro hfits
          exact absurd (hfits.mono (le_supplyAfter more _)) hnot
      · obtain ⟨-, hsupply, hloops⟩ := step_of_ne_overflow hg hfull
        rw [if_neg hfull, List.forall_mem_cons, ← hsupply, ih hloops]
        exact ⟨And.right, fun hfits => ⟨hfull, hfits⟩⟩

theorem requests_of_run (h : ∀ step ∈ g.run requests, step.answer ≠ .overflow) :
    (g.run requests).map (·.request) = requests := by
  induction requests generalizing g with
  | nil => rfl
  | cons r more ih =>
      unfold Generator.run at h ⊢
      by_cases hfull : (g.step r).answer = .overflow
      · rw [if_pos hfull] at h
        exact absurd hfull (h _ List.mem_cons_self)
      · rw [if_neg hfull] at h ⊢
        rw [List.map_cons, step_request, ih (step_of_ne_overflow hg hfull).2.2
          (fun step hstep => h step (List.mem_cons_of_mem _ hstep))]

end Runs

/-- The generators that requests lead to, from a new one on, as long as no count is full. -/
inductive Generator.Reachable : Generator → Prop where
  | new : Reachable {}
  | step {g : Generator} (r : GenRequest) (hg : Reachable g) (h : (g.step r).answer ≠ .overflow) :
    Reachable (g.step r).after

/-- Between two requests no loop is open. -/
theorem Generator.Reachable.loops_eq {g : Generator} (h : g.Reachable) : g.loops = [] := by
  induction h with
  | new => rfl
  | step r _ hanswer ih => exact (orderly_step ih hanswer).closed

/-- **A generator never gives a name twice and leaves no loop open.** Over any requests to a new
    generator, of which some may fail, the temporaries have rising numbers in the order in which they are
    given out or set, so no two are the same; no two labels are the same; and every step is orderly, up to
    one at which a count is full. A count is full exactly where 32 bits do not hold the names that the
    request asks for; where they hold all names that the requests ask for, every request is answered. -/
theorem generator_names_distinct (requests : List GenRequest)
    (hstems : ∀ stem, .label stem ∈ requests → IsStem stem) :
    (∃ numbers : List Nat, numbers.Pairwise (· < ·) ∧
      (Generator.run {} requests).flatMap (·.answer.temps) = numbers.map tempName) ∧
    ((Generator.run {} requests).flatMap (·.answer.temps)).Nodup ∧
    ((Generator.run {} requests).flatMap (·.answer.labels)).Nodup ∧
    (∀ step ∈ Generator.run {} requests, step.answer ≠ .overflow → step.Orderly) ∧
    (∀ step ∈ Generator.run {} requests,
      step.answer = .overflow ↔ ¬ (step.request.answer step.before.supply).2.Fits) ∧
    ((GenRequest.supplyAfter {} requests).Fits →
      (Generator.run {} requests).map (·.request) = requests ∧
      ∀ step ∈ Generator.run {} requests, step.Orderly) := by
  have hclosed : ({} : Generator).loops = [] := rfl
  obtain ⟨s', hnames⟩ := newNames_run hclosed requests hstems
  obtain ⟨numbers, hrising, _, htemps⟩ := hnames.temps
  have horderly : ∀ step ∈ Generator.run {} requests, step.answer ≠ .overflow → step.Orderly :=
    forall_run hclosed requests fun g r hg => orderly_step hg
  refine ⟨⟨numbers, hrising, htemps⟩, hnames.nodup_temps, hnames.nodup_labels, horderly, ?_, ?_⟩
  · refine forall_run hclosed requests fun g r hg => ?_
    rw [step_request, step_before]
    exact step_overflow_iff hg r
  · intro hfits
    have hanswers := (run_no_overflow_iff hclosed requests).mpr hfits
    exact ⟨requests_of_run hclosed requests hanswers,
      fun step hstep => horderly step hstep (hanswers step hstep)⟩

/-- A loop that is left by `break`, and the statements behind it. -/
def loopThen (behind : List Stmt) : Program :=
  ⟨[], ⟨.while (.bool true {}) ⟨[.break {}], {}⟩ {} :: behind, {}⟩, {}⟩

/-- A tree with a stray `break` behind its loop is asked for twice, and the tree without it in between. -/
def mixedRequests : List GenRequest :=
  [.temp, .code (loopThen [.break {}]), .label "L_end_", .code (loopThen []),
    .code (loopThen [.break {}])]

/-- The second temporary and the first two labels are gone with the tree that has no code; its `break` is
    still stray behind the loop of another tree. -/
theorem generator_names_distinct_mixed :
    (Generator.run {} mixedRequests).map (·.answer) =
      [.temp "t1", .stray ⟨.break, {}⟩, .label "L_end_3",
        .code [.sectionStart .main none [] none, .label "L_while_start_4", .const "t3" (.bool true),
          .ifNotGoto "t3" "L_while_end_5", .goto "L_while_end_5", .goto "L_while_start_4",
          .label "L_while_end_5", .sectionEnd .main none],
        .stray ⟨.break, {}⟩] ∧
    (GenRequest.supplyAfter {} mixedRequests).Fits ∧
    ((Generator.run {} mixedRequests).flatMap (·.answer.labels)).Nodup ∧
    ∀ step ∈ Generator.run {} mixedRequests, step.after.loops = [] := by
  have hstems : ∀ stem, .label stem ∈ mixedRequests → IsStem stem := by
    intro stem hstem
    have hend : stem = "L_end_" := by simpa [mixedRequests] using hstem
    subst hend
    decide
  have hfits : (GenRequest.supplyAfter {} mixedRequests).Fits := by decide +kernel
  obtain ⟨_, _, hlabels, _, _, hall⟩ := generator_names_distinct mixedRequests hstems
  refine ⟨by decide +kernel, hfits, hlabels, fun step hstep => ?_⟩
  exact ((hall hfits).2 step hstep).closed

end TinyPascal
