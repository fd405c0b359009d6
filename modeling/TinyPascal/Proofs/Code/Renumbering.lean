import TinyPascal.Proofs.Code.Numbering

/-!
# `Proofs.Code.Renumbering` — a generator that goes on only renumbers

A generator that has handed out names takes the next ones for a program where a new generator would start
at one. Nothing else about the code depends on the names that are gone: **the code is that of a new
generator with all numbers raised**, by one count for the temporaries and another for the labels. A
program without code has none after other names either, and the names that are gone with it are counted
in the same way.

Two runs of lowering are compared, from a supply and from the same supply further on. The relation
between them (`Renumbers`) is kept by every step, so it is carried through the tree by one induction.

## Contents
- **Names.** `raise`: a name with a higher number. `raiseTemp` leaves the names alone that are not spelled
  like temporaries.
- **Code.** `Instr.renumber`, `Lowered.renumber`, `Loop.renumber`.
- **Steps.** `Renumbers n f x y`: further on by `n`, `y` does what `x` does, up to `f`.
- **Lowering.** `lower_renumber` for expressions, `renumbers_lower` for statements,
  `renumbers_lower_program`.
- **Generators.** `generator_only_renumbers`.
-/

namespace TinyPascal

/-! ## Names -/

/-- What stands in front of the number at the end of a name. -/
def labelStem (name : String) : String :=
  String.ofList (name.toList.reverse.dropWhile Char.isDigit).reverse

/-- The name with the same stem and a number that is higher by `n`. -/
def raise (n : Nat) (name : String) : String :=
  labelName (labelStem name) (n + labelNumber name)

/-- A temporary gets a number that is higher by `n`; other names stay. -/
def raiseTemp (n : Nat) (name : Place) : Place :=
  if isTempName name then raise n name else name

/-- The stem of a label is read back from its name. -/
theorem labelStem_labelName {stem : String} (h : IsStem stem) (m : Nat) :
    labelStem (labelName stem m) = stem := by
  -- the characters of the number are taken, so those of the stem are left
  have hsplit := List.takeWhile_append_dropWhile
    (p := Char.isDigit) (l := (labelName stem m).toList.reverse)
  rw [takeWhile_labelName h, labelName, String.toList_append, List.reverse_append] at hsplit
  rw [labelStem, labelName, String.toList_append, List.reverse_append,
    List.append_cancel_left hsplit, List.reverse_reverse, String.ofList_toList]

/-- Raising a label adds to its number. -/
theorem raise_labelName {stem : String} (h : IsStem stem) (n m : Nat) :
    raise n (labelName stem m) = labelName stem (n + m) := by
  rw [raise, labelStem_labelName h, labelNumber_labelName h]

@[simp] theorem raiseTemp_tempName (n m : Nat) : raiseTemp n (tempName m) = tempName (n + m) := by
  have hstem : IsStem "t" := by decide
  rw [raiseTemp, if_pos (isTempName_tempName m)]
  exact raise_labelName hstem n m

theorem raiseTemp_of_not {x : String} (h : isTempName x = false) (n : Nat) : raiseTemp n x = x := by
  rw [raiseTemp, if_neg (by simp [h])]

/-! ## Code -/

/-- An instruction with the numbers of its temporaries and labels raised. The names of routines,
    parameters and global variables are none of these. -/
def Instr.renumber (n : Supply) : Instr → Instr
  | .const target value => .const (raiseTemp n.temps target) value
  | .assign target arg => .assign (raiseTemp n.temps target) (raiseTemp n.temps arg)
  | .binary op target left right =>
    .binary op (raiseTemp n.temps target) (raiseTemp n.temps left) (raiseTemp n.temps right)
  | .not target arg => .not (raiseTemp n.temps target) (raiseTemp n.temps arg)
  | .call target callee args =>
    .call (raiseTemp n.temps target) callee (args.map (raiseTemp n.temps))
  | .print arg => .print (raiseTemp n.temps arg)
  | .ret arg => .ret (arg.map (raiseTemp n.temps))
  | .label l => .label (raise n.labels l)
  | .goto l => .goto (raise n.labels l)
  | .ifGoto cond l => .ifGoto (raiseTemp n.temps cond) (raise n.labels l)
  | .ifNotGoto cond l => .ifNotGoto (raiseTemp n.temps cond) (raise n.labels l)
  | .decl names ty => .decl names ty
  | .sectionStart kind name params result => .sectionStart kind name params result
  | .sectionEnd kind name => .sectionEnd kind name

/-- Lowered code with its numbers raised, and `f` applied to what it leaves behind. -/
def Lowered.renumber {α : Type} (n : Supply) (f : α → α) (a : Lowered α) : Lowered α :=
  ⟨a.code.map (Instr.renumber n), f a.result, n.temps + a.temps⟩

def Loop.renumber (n : Supply) (l : Loop) : Loop :=
  ⟨raise n.labels l.start, raise n.labels l.stop⟩

/-! ## Steps -/

/-- A result further on by `n`, with `f` applied to the value. -/
def renumbered {α : Type} (n : Supply) (f : α → α) :
    EStateM.Result StrayJump Supply α → EStateM.Result StrayJump Supply α
  | .ok a s => .ok (f a) (n + s)
  | .error e s => .error e (n + s)

/-- **Doing the same further on.** From a supply that is further on by `n`, the step `y` gives what `x`
    gives, up to `f`, and stops as much further on; also when it fails. -/
def Renumbers {α : Type} (n : Supply) (f : α → α) (x y : Gen α) : Prop :=
  ∀ s, y (n + s) = renumbered n f (x s)

namespace Renumbers

variable {α β : Type} {n : Supply} {f : α → α} {g : β → β} {x y : Gen α}

theorem pure {a b : α} (h : f a = b) : Renumbers n f (Pure.pure a) (Pure.pure b) := by
  subst h
  exact fun _ => rfl

theorem throw (e : StrayJump) : Renumbers n f (throw e) (throw e) :=
  fun _ => rfl

/-- Renumbering is kept by sequences. -/
theorem bind {h h' : α → Gen β} (hx : Renumbers n f x y)
    (hh : ∀ a, Renumbers n g (h a) (h' (f a))) : Renumbers n g (x >>= h) (y >>= h') := by
  intro s
  show EStateM.bind y h' (n + s) = renumbered n g (EStateM.bind x h s)
  unfold EStateM.bind
  rw [hx s]
  cases x s with
  | ok a s₁ => exact hh a s₁
  | error e s₁ => rfl

/-- A label handed out from raised counts is the raised label. -/
theorem label {stem : String} (h : IsStem stem) :
    Renumbers n (raise n.labels) (Gen.label stem) (Gen.label stem) := by
  intro s
  show EStateM.Result.ok (labelName stem (n.labels + (s.labels + 1))) (n + (s.label stem).2) =
    .ok (raise n.labels (labelName stem (s.labels + 1))) (n + (s.label stem).2)
  rw [raise_labelName h]

/-- A label that is not used takes a number. -/
theorem discard_label (stem : String) :
    Renumbers n id (discard (Gen.label stem)) (discard (Gen.label stem)) :=
  fun _ => rfl

/-- Code that is renumbered at each count is so as a step of the generator. -/
theorem temps {l : Nat → Lowered α} (h : ∀ k, l (n.temps + k) = (l k).renumber n f) :
    Renumbers n (Lowered.renumber n f) (Gen.temps l) (Gen.temps l) := by
  intro s
  unfold Gen.temps
  show EStateM.Result.ok (l (n.temps + s.temps))
    { (n + s) with temps := (l (n.temps + s.temps)).temps } = _
  rw [h s.temps]
  rfl

end Renumbers

/-! ## Lowering -/

mutual

/-- **Expressions.** Their own names are not spelled like temporaries, so raising the numbers of
    temporaries leaves them as they are. -/
theorem lower_renumber (n : Supply) : ∀ (e : Expr), (∀ x ∈ e.identifiers, isTempName x = false) →
    ∀ k, e.lower (n.temps + k) = (e.lower k).renumber n (raiseTemp n.temps)
  | .int _ _, _, k | .bool _ _, _, k => by
      simp [Expr.lower, Lowered.renumber, Instr.renumber, Nat.add_assoc]
  | .var name _, h, k => by
      have hname : isTempName name = false := h name List.mem_cons_self
      simp [Expr.lower, Lowered.renumber, raiseTemp_of_not hname]
  | .paren inner _, h, k => lower_renumber n inner h k
  | .not operand _, h, k => by
      have ha := lower_renumber n operand h k
      simp [Expr.lower, ha, Lowered.renumber, Instr.renumber, Nat.add_assoc]
  | .binary _ left right _, h, k => by
      obtain ⟨hleft, hright⟩ := List.forall_mem_append.mp h
      have ha := lower_renumber n left hleft k
      have hb := lower_renumber n right hright (left.lower k).temps
      simp only [Expr.lower, ha]
      simp [Lowered.renumber, hb, Instr.renumber, Nat.add_assoc]
  | .call _ args _, h, k => by
      have ha := lowerArgs_renumber n args (List.forall_mem_cons.mp h).2 k
      simp [Expr.lower, ha, Lowered.renumber, Instr.renumber, Nat.add_assoc]

/-- Arguments without names of temporaries lower to renumbered code from a raised count. -/
theorem lowerArgs_renumber (n : Supply) : ∀ (es : List Expr),
    (∀ x ∈ identifiersOf es, isTempName x = false) →
    ∀ k, lowerArgs es (n.temps + k) = (lowerArgs es k).renumber n (List.map (raiseTemp n.temps))
  | [], _, _ => rfl
  | e :: es, h, k => by
      obtain ⟨hfirst, hmore⟩ := List.forall_mem_append.mp h
      have ha := lower_renumber n e hfirst k
      have hb := lowerArgs_renumber n es hmore (e.lower k).temps
      simp only [lowerArgs, ha]
      simp [Lowered.renumber, hb]

end

theorem lowerPrints_renumber (n : Supply) (es : List Expr)
    (h : ∀ e ∈ es, ∀ x ∈ e.identifiers, isTempName x = false) (k : Nat) :
    lowerPrints es (n.temps + k) = (lowerPrints es k).renumber n id := by
  induction es generalizing k with
  | nil => rfl
  | cons e es ih =>
      obtain ⟨hfirst, hmore⟩ := List.forall_mem_cons.mp h
      have ha := lower_renumber n e hfirst k
      have hb := ih hmore (e.lower k).temps
      simp only [lowerPrints, ha]
      simp [Lowered.renumber, hb, Instr.renumber]

/-- The value of an expression. -/
theorem Renumbers.test {n : Supply} {cond : Expr} (h : ∀ x ∈ cond.identifiers, isTempName x = false) :
    Renumbers n (Lowered.renumber n (raiseTemp n.temps)) (Gen.temps cond.lower)
      (Gen.temps cond.lower) :=
  .temps (lower_renumber n cond h)

mutual

/-- **Statements.** The labels of the loop around a statement are raised with those of its own code. -/
theorem renumbers_lower (n : Supply) : ∀ (st : Stmt) (loop : Option Loop),
    NoTemps st.targets st.exprs →
    Renumbers n (List.map (Instr.renumber n)) (st.lower loop) (st.lower (loop.map (Loop.renumber n)))
  | .assign target value _, _, h => by
      have htarget : raiseTemp n.temps target.name = target.name :=
        raiseTemp_of_not (h.targets _ List.mem_cons_self) _
      unfold Stmt.lower
      refine (Renumbers.test h.head).bind fun a => .pure ?_
      rw [List.map_append, List.map_singleton, Instr.renumber, htarget]
      rfl
  | .call callee args span, _, h => by
      have hcall : Renumbers n _ (Gen.temps (lowerCall callee args)) _ :=
        .temps (lower_renumber n (.call callee args span) h.head)
      exact hcall.bind fun _ => .pure rfl
  | .return none _, _, _ => .pure rfl
  | .return (some value) _, _, h => by
      unfold Stmt.lower
      refine (Renumbers.test h.head).bind fun a => .pure ?_
      rw [List.map_append]
      rfl
  | .ifThen cond yes _, loop, h => by
      unfold Stmt.lower
      refine (Renumbers.test h.head).bind fun c => ?_
      refine (Renumbers.discard_label _).bind fun _ => ?_
      refine (Renumbers.label (by decide)).bind fun stop => ?_
      refine (renumbers_lower_block n yes loop h.tail).bind fun body => .pure ?_
      simp only [List.map_append]
      rfl
  | .ifElse cond yes no _, loop, h => by
      unfold Stmt.lower
      refine (Renumbers.test h.head).bind fun c => ?_
      refine (Renumbers.label (by decide)).bind fun first => ?_
      refine (Renumbers.label (by decide)).bind fun second => ?_
      refine (Renumbers.label (by decide)).bind fun stop => ?_
      refine (renumbers_lower_block n yes loop h.tail.left).bind fun a => ?_
      refine (renumbers_lower_block n no loop h.tail.right).bind fun b => .pure ?_
      simp only [List.map_append]
      rfl
  | .while cond body _, _, h => by
      unfold Stmt.lower
      refine (Renumbers.label (by decide)).bind fun start => ?_
      refine (Renumbers.label (by decide)).bind fun stop => ?_
      refine (Renumbers.test h.head).bind fun c => ?_
      refine (renumbers_lower_block n body (some ⟨start, stop⟩) h.tail).bind fun a => .pure ?_
      simp only [List.map_append]
      rfl
  | .break _, none, _ | .continue _, none, _ => .throw _
  | .break _, some _, _ | .continue _, some _, _ => .pure rfl
  | .write args _, _, h => by
      have hprints : Renumbers n _ (Gen.temps (lowerPrints args)) _ :=
        .temps (lowerPrints_renumber n args h.exprs)
      exact hprints.bind fun _ => .pure rfl

/-- A block without names of temporaries lowers to renumbered code from raised counts. -/
theorem renumbers_lower_block (n : Supply) : ∀ (b : Block) (loop : Option Loop),
    NoTemps b.targets b.exprs →
    Renumbers n (List.map (Instr.renumber n)) (b.lower loop) (b.lower (loop.map (Loop.renumber n)))
  | ⟨statements, _⟩, loop, h => renumbers_lowerAll n statements loop h

theorem renumbers_lowerAll (n : Supply) : ∀ (ss : List Stmt) (loop : Option Loop),
    NoTemps (targetsOf ss) (exprsOf ss) →
    Renumbers n (List.map (Instr.renumber n)) (lowerAll loop ss)
      (lowerAll (loop.map (Loop.renumber n)) ss)
  | [], _, _ => .pure rfl
  | st :: more, loop, h => by
      refine (renumbers_lower n st loop h.left).bind fun a => ?_
      exact (renumbers_lowerAll n more loop h.right).bind fun b => .pure List.map_append

end

theorem renumbers_lower_routine (n : Supply) {r : Routine}
    (h : ∀ x ∈ r.body.identifiers, isTempName x = false) :
    Renumbers n (List.map (Instr.renumber n)) r.lower r.lower := by
  refine (renumbers_lower_block n r.body none (.block h)).bind fun body => .pure ?_
  simp only [List.map_append]
  rfl

theorem renumbers_lowerDecls (n : Supply) (ds : List Decl)
    (h : ∀ x ∈ ds.flatMap Decl.identifiers, isTempName x = false) :
    Renumbers n (List.map (Instr.renumber n)) (lowerDecls ds) (lowerDecls ds) := by
  induction ds with
  | nil => exact .pure rfl
  | cons d ds ih =>
      rw [List.flatMap_cons] at h
      obtain ⟨hfirst, hmore⟩ := List.forall_mem_append.mp h
      cases d with
      | vars decl => exact (ih hmore).bind fun b => .pure rfl
      | routine r =>
          have hbody : ∀ x ∈ r.body.identifiers, isTempName x = false :=
            fun x hx => hfirst x (List.mem_cons_of_mem _ (List.mem_append_right _ hx))
          refine (renumbers_lower_routine n hbody).bind fun a => ?_
          exact (ih hmore).bind fun b => .pure List.map_append

theorem renumbers_lower_program (n : Supply) {p : Program}
    (h : ∀ x ∈ p.identifiers, isTempName x = false) :
    Renumbers n (List.map (Instr.renumber n)) p.lower p.lower := by
  obtain ⟨hdecls, hmain⟩ := List.forall_mem_append.mp h
  refine (renumbers_lowerDecls n p.declarations hdecls).bind fun a => ?_
  refine (renumbers_lower_block n p.main none (.block hmain)).bind fun b => .pure ?_
  simp only [List.map_append]
  rfl

/-! ## Generators -/

/-- The code of a program behind other names. -/
theorem codeWith_renumber {p : Program} (hnames : ∀ x ∈ p.identifiers, isTempName x = false)
    (s : Supply) :
    p.codeWith s = (p.code.map (List.map (Instr.renumber s)), s + (p.codeWith {}).2) := by
  have hrun : p.lower s = renumbered s (List.map (Instr.renumber s)) (p.lower {}) :=
    renumbers_lower_program s hnames {}
  unfold Program.code Program.codeWith
  rw [hrun]
  cases p.lower {} <;> rfl

/-- **A generator that goes on only renumbers.** If no name of a program is spelled like a temporary, then
    whatever names were handed out before, there is code for the program exactly if there is code with fresh
    names: the same code, with the numbers of all temporaries and labels raised by the counts of those
    handed out before. It fails with the same jump, and either way the counts are in the end as much further
    on. So a generator does, whatever it was asked before, what a new generator does, unless a count is full,
    which is so exactly if 32 bits do not hold the raised counts. -/
theorem generator_only_renumbers {g : Generator} (hg : g.Reachable) (p : Program)
    (hnames : ∀ x ∈ p.identifiers, isTempName x = false) :
    (∀ s, p.codeWith s = (p.code.map (List.map (Instr.renumber s)), s + (p.codeWith {}).2)) ∧
    ((p.emitWith g).1 = .error .overflow ↔ ¬ (g.supply + (p.codeWith {}).2).Fits) ∧
    ((g.supply + (p.codeWith {}).2).Fits →
      (p.emitWith g).1 = (p.emitWith {}).1.map (List.map (Instr.renumber g.supply)) ∧
      (p.emitWith g).2.supply = g.supply + (p.emitWith {}).2.supply ∧
      (p.emitWith g).2.loops = []) := by
  have hcode := codeWith_renumber hnames
  have hcounts : (p.codeWith g.supply).2 = g.supply + (p.codeWith {}).2 := by rw [hcode g.supply]
  have hfull := emitWith_eq_overflow_iff p hg.loops_eq
  rw [hcounts] at hfull
  refine ⟨hcode, hfull, fun hfits => ?_⟩
  have hfits' : (p.codeWith {}).2.Fits := hfits.mono (Supply.le_add_left _ _)
  obtain ⟨hemit, hsupply, hloops⟩ := emitWith_of_fits p hg.loops_eq (by rwa [hcounts])
  obtain ⟨hnew, hstart, -⟩ := emitWith_of_fits p (g := {}) rfl hfits'
  have hnew : (p.emitWith {}).1 = p.code.mapError .stray := hnew
  refine ⟨?_, ?_, hloops⟩
  · rw [hemit, hnew, hcode g.supply]
    cases p.code <;> rfl
  · rw [hsupply, hcounts, hstart]
    rfl

/-- A generator that has given out `t1` and then failed on a program, which took `t2` and two labels. -/
def usedGenerator : Generator :=
  (Generator.step (Generator.step {} .temp).after (.code (loopThen [.break {}]))).after

/-- The names go on behind those of the program that has no code, and a program with a stray jump takes
    as many names as it would from a new generator. -/
theorem generator_only_renumbers_used :
    ((loopThen [.assign ⟨"total", {}⟩ (.int 7 {}) {}]).emitWith usedGenerator).1 =
      .ok [.sectionStart .main none [] none, .label "L_while_start_3", .const "t3" (.bool true),
        .ifNotGoto "t3" "L_while_end_4", .goto "L_while_end_4", .goto "L_while_start_3",
        .label "L_while_end_4", .const "t4" (.int 7), .assign "total" "t4", .sectionEnd .main none] ∧
    ((loopThen [.assign ⟨"total", {}⟩ (.int 7 {}) {}]).emitWith usedGenerator).2.supply =
      ⟨2, 2⟩ + ⟨2, 2⟩ ∧
    ((loopThen [.continue {}]).emitWith usedGenerator).1 = .error (.stray ⟨.continue, {}⟩) ∧
    ((loopThen [.continue {}]).emitWith usedGenerator).2.supply = ⟨2, 2⟩ + ⟨1, 2⟩ := by
  have hreachable : usedGenerator.Reachable :=
    .step _ (.step _ .new (by decide +kernel)) (by decide +kernel)
  obtain ⟨_, _, hrun⟩ := generator_only_renumbers hreachable
    (loopThen [.assign ⟨"total", {}⟩ (.int 7 {}) {}]) (by decide +kernel)
  obtain ⟨hcode, hsupply, -⟩ := hrun (by decide +kernel)
  obtain ⟨_, _, hfails⟩ := generator_only_renumbers hreachable (loopThen [.continue {}])
    (by decide +kernel)
  obtain ⟨herror, hsupply', -⟩ := hfails (by decide +kernel)
  exact ⟨hcode.trans (by decide +kernel), hsupply.trans (by decide +kernel),
    herror.trans (by decide +kernel), hsupply'.trans (by decide +kernel)⟩

end TinyPascal
