import TinyPascal.Proofs.Code.Numbering

/-!
# `Proofs.Code.FirstStray` — a generator fails at the first stray jump of a listing

`Stmt.strays` finds stray jumps by the same walk over the tree as lowering does. This module says what
they are without a walk. All statements of a program are listed in the order in which they are written
(`Program.stmts`), those inside a loop right behind it. A jump of the listing is **stray if it does not
stand among the statements right behind a loop that are inside it**, and a generator fails exactly if
there is such a jump, with the first one.

## Contents
- **Listings.** `InLoop`, `StrayAt`: where loops and stray jumps are in a listing. `ListsLoops`: the
  statements inside a loop stand right behind it.
- **The first stray jump.** `FirstStray`, with `FirstStray.append`; `firstStray_stmt`,
  `firstStray_program`.
- **Generators.** `fails_at_first_stray`.
-/

namespace TinyPascal

/-! ## Listings -/

/-- A statement that is a jump, as an error names it. -/
def Stmt.jump? : Stmt → Option StrayJump
  | .break span => some ⟨.break, span⟩
  | .continue span => some ⟨.continue, span⟩
  | _ => none

/-- The statement at position `j` is inside a loop of the listing: it is one of those right behind the
    loop, of which there are as many as the loop has statements inside. -/
def InLoop (stmts : List Stmt) (j : Nat) : Prop :=
  ∃ i cond body span, stmts[i]? = some (.while cond body span) ∧ i < j ∧ j ≤ i + body.stmts.length

/-- At position `j` stands a jump that is inside no loop. -/
structure StrayAt (stmts : List Stmt) (j : Nat) (jump : StrayJump) : Prop where
  jump : ∃ st, stmts[j]? = some st ∧ st.jump? = some jump
  outside : ¬ InLoop stmts j

/-- Right behind each loop stand the statements inside it. -/
def ListsLoops (stmts : List Stmt) : Prop :=
  ∀ i cond body span, stmts[i]? = some (.while cond body span) → body.stmts <+: stmts.drop (i + 1)

section Listings

variable {a b : List Stmt} {st : Stmt} {j : Nat} {jump : StrayJump}

/-- What is inside a loop of a listing stands in the listing. -/
theorem ListsLoops.length_le (h : ListsLoops a) {i : Nat} {cond : Expr} {body : Block} {span : Span}
    (hi : a[i]? = some (.while cond body span)) : i + body.stmts.length < a.length := by
  have hlt : i < a.length := (List.getElem?_eq_some_iff.mp hi).1
  have hle := (h i cond body span hi).length_le
  rw [List.length_drop] at hle
  omega

theorem ListsLoops.nil : ListsLoops [] := by
  intro i cond body span hi
  rw [List.getElem?_nil] at hi
  cases hi

theorem ListsLoops.append (ha : ListsLoops a) (hb : ListsLoops b) : ListsLoops (a ++ b) := by
  intro i cond body span hi
  by_cases hin : i < a.length
  · rw [List.getElem?_append_left hin] at hi
    rw [List.drop_append_of_le_length (by omega)]
    exact (ha i cond body span hi).trans (List.prefix_append _ _)
  · rw [List.getElem?_append_right (by omega)] at hi
    have hbody := hb _ cond body span hi
    rw [List.drop_append, List.drop_eq_nil_of_le (by omega), List.nil_append]
    rwa [show i + 1 - a.length = i - a.length + 1 by omega]

/-- A statement that is no loop. -/
theorem ListsLoops.one (h : ∀ cond body span, st ≠ .while cond body span) : ListsLoops [st] := by
  intro i cond body span hi
  have hmem : Stmt.while cond body span ∈ [st] := List.mem_of_getElem? hi
  exact absurd (List.mem_singleton.mp hmem).symm (h cond body span)

theorem ListsLoops.loop {cond : Expr} {body : Block} {span : Span} (h : ListsLoops body.stmts) :
    ListsLoops (.while cond body span :: body.stmts) := by
  intro i cond' body' span' hi
  cases i with
  | zero =>
      cases hi
      exact List.prefix_rfl
  | succ i => exact h i cond' body' span' hi

/-- Whether a jump is stray is a matter of the statement and of the loops around it. -/
theorem strayAt_congr {i : Nat} (hst : a[i]? = b[j]?) (hloop : InLoop a i ↔ InLoop b j) :
    StrayAt a i jump ↔ StrayAt b j jump := by
  constructor
  · rintro ⟨hjump, hout⟩
    exact ⟨by rwa [← hst], fun hin => hout (hloop.mpr hin)⟩
  · rintro ⟨hjump, hout⟩
    exact ⟨by rwa [hst], fun hin => hout (hloop.mp hin)⟩

theorem strayAt_append_left (hj : j < a.length) : StrayAt (a ++ b) j jump ↔ StrayAt a j jump := by
  have hkeep : ∀ i, i ≤ j → (a ++ b)[i]? = a[i]? := fun i hi => List.getElem?_append_left (by omega)
  apply strayAt_congr (hkeep j (Nat.le_refl j))
  constructor
  · rintro ⟨i, cond, body, span, hi, hlt, hle⟩
    exact ⟨i, cond, body, span, by rwa [← hkeep i (by omega)], hlt, hle⟩
  · rintro ⟨i, cond, body, span, hi, hlt, hle⟩
    exact ⟨i, cond, body, span, by rwa [hkeep i (by omega)], hlt, hle⟩

/-- No loop of a first listing reaches into a second one. -/
theorem strayAt_append_right (ha : ListsLoops a) :
    StrayAt (a ++ b) (a.length + j) jump ↔ StrayAt b j jump := by
  have hmove : ∀ i, (a ++ b)[a.length + i]? = b[i]? := by
    intro i
    rw [List.getElem?_append_right (by omega), Nat.add_sub_cancel_left]
  apply strayAt_congr (hmove j)
  constructor
  · rintro ⟨i, cond, body, span, hi, hlt, hle⟩
    by_cases hin : i < a.length
    · rw [List.getElem?_append_left hin] at hi
      have hbound := ha.length_le hi
      omega
    · rw [List.getElem?_append_right (by omega)] at hi
      exact ⟨i - a.length, cond, body, span, hi, by omega, by omega⟩
  · rintro ⟨i, cond, body, span, hi, hlt, hle⟩
    exact ⟨a.length + i, cond, body, span, by rwa [hmove], by omega, by omega⟩

end Listings

/-! ## The first stray jump -/

/-- The first stray jump of a listing, or that there is none. -/
def FirstStray (stmts : List Stmt) : Option StrayJump → Prop
  | none => ∀ j jump, ¬ StrayAt stmts j jump
  | some jump => ∃ j, StrayAt stmts j jump ∧ ∀ i jump', i < j → ¬ StrayAt stmts i jump'

namespace FirstStray

variable {a b : List Stmt} {first first' : Option StrayJump} {st : Stmt}

theorem nil : FirstStray [] none := by
  rintro j jump ⟨⟨st, hj, _⟩, _⟩
  cases hj

/-- A statement with nothing inside. -/
theorem one (st : Stmt) : FirstStray [st] st.jump? := by
  have hout : ¬ InLoop [st] 0 := by
    rintro ⟨i, cond, body, span, _, hlt, _⟩
    omega
  cases hjump : st.jump? with
  | none =>
      rintro j jump ⟨⟨st', hj, hjump'⟩, _⟩
      have hmem : st' ∈ [st] := List.mem_of_getElem? hj
      rw [List.mem_singleton.mp hmem, hjump] at hjump'
      cases hjump'
  | some jump => exact ⟨0, ⟨⟨st, rfl, hjump⟩, hout⟩, fun i _ hlt => by omega⟩

/-- Of two listings in a row, the second one counts only if the first has no stray jump. -/
theorem append (hlists : ListsLoops a) (ha : FirstStray a first) (hb : FirstStray b first') :
    FirstStray (a ++ b) (first.or first') := by
  cases first with
  | some jump =>
      obtain ⟨j, hj, hbefore⟩ := ha
      obtain ⟨st, hst, _⟩ := hj.jump
      have hlt : j < a.length := (List.getElem?_eq_some_iff.mp hst).1
      refine ⟨j, (strayAt_append_left hlt).mpr hj, fun i jump' hi hstray => ?_⟩
      exact hbefore i jump' hi ((strayAt_append_left (by omega)).mp hstray)
  | none =>
      -- whatever is stray stands in the second listing
      have hsecond : ∀ j jump, StrayAt (a ++ b) j jump →
          ∃ j', j = a.length + j' ∧ StrayAt b j' jump := by
        intro j jump hstray
        by_cases hin : j < a.length
        · exact absurd ((strayAt_append_left hin).mp hstray) (ha j jump)
        · obtain ⟨j', rfl⟩ : ∃ j', j = a.length + j' := ⟨j - a.length, by omega⟩
          exact ⟨j', rfl, (strayAt_append_right hlists).mp hstray⟩
      cases first' with
      | none =>
          intro j jump hstray
          obtain ⟨j', _, hstray'⟩ := hsecond j jump hstray
          exact hb j' jump hstray'
      | some jump =>
          obtain ⟨j, hj, hbefore⟩ := hb
          refine ⟨a.length + j, (strayAt_append_right hlists).mpr hj, fun i jump' hi hstray => ?_⟩
          obtain ⟨i', rfl, hstray'⟩ := hsecond i jump' hstray
          exact hbefore i' jump' (by omega) hstray'

/-- There is at most one first stray jump. -/
theorem unique (h : FirstStray a first) (h' : FirstStray a first') : first = first' := by
  cases first with
  | none =>
      cases first' with
      | none => rfl
      | some jump' =>
          obtain ⟨j', hj', _⟩ := h'
          exact absurd hj' (h j' jump')
  | some jump =>
      obtain ⟨j, hj, hbefore⟩ := h
      cases first' with
      | none => exact absurd hj (h' j jump)
      | some jump' =>
          obtain ⟨j', hj', hbefore'⟩ := h'
          have hle : j ≤ j' := Nat.le_of_not_lt fun hlt => hbefore j' jump' hlt hj'
          have hge : j' ≤ j := Nat.le_of_not_lt fun hlt => hbefore' j jump hlt hj
          obtain rfl : j = j' := Nat.le_antisymm hle hge
          obtain ⟨st, hst, hjump⟩ := hj.jump
          obtain ⟨st', hst', hjump'⟩ := hj'.jump
          rw [hst] at hst'
          cases hst'
          rw [← hjump, hjump']

/-- Whatever a loop has inside is not stray. -/
theorem loop {cond : Expr} {body : Block} {span : Span} :
    FirstStray (.while cond body span :: body.stmts) none := by
  rintro j jump ⟨⟨st, hj, hjump⟩, hout⟩
  cases j with
  | zero =>
      cases hj
      cases hjump
  | succ j =>
      rw [List.getElem?_cons_succ] at hj
      have hlt : j < body.stmts.length := (List.getElem?_eq_some_iff.mp hj).1
      exact hout ⟨0, cond, body, span, rfl, by omega, by omega⟩

end FirstStray

mutual

/-- **The listing of a statement**: its loops are in front of what is inside them, and the first stray
    jump is the one that a walk over the statement finds first. -/
theorem firstStray_stmt : ∀ st : Stmt,
    ListsLoops (st :: st.nested) ∧ FirstStray (st :: st.nested) (st.strays false).head?
  | .assign _ _ _ | .call _ _ _ | .return _ _ | .write _ _ | .break _ | .continue _ =>
      ⟨.one nofun, .one _⟩
  | .ifThen cond yes span => by
      obtain ⟨hlists, hfirst⟩ := firstStray_block yes
      have hone : ListsLoops [.ifThen cond yes span] := .one nofun
      exact ⟨hone.append hlists, .append hone (.one _) hfirst⟩
  | .ifElse cond yes no span => by
      obtain ⟨hyes, hfirst⟩ := firstStray_block yes
      obtain ⟨hno, hsecond⟩ := firstStray_block no
      have hone : ListsLoops [.ifElse cond yes no span] := .one nofun
      have hboth : FirstStray (yes.stmts ++ no.stmts) (yes.strays false ++ no.strays false).head? := by
        rw [List.head?_append]
        exact .append hyes hfirst hsecond
      exact ⟨hone.append (hyes.append hno), .append hone (.one _) hboth⟩
  | .while cond body span => by
      refine ⟨(firstStray_block body).1.loop, ?_⟩
      unfold Stmt.strays
      rw [strays_inLoop_block]
      exact .loop

theorem firstStray_block : ∀ b : Block,
    ListsLoops b.stmts ∧ FirstStray b.stmts (b.strays false).head?
  | ⟨statements, _⟩ => firstStray_all statements

theorem firstStray_all : ∀ ss : List Stmt,
    ListsLoops (stmtsOf ss) ∧ FirstStray (stmtsOf ss) (straysOf false ss).head?
  | [] => ⟨.nil, .nil⟩
  | st :: more => by
      obtain ⟨hlists, hfirst⟩ := firstStray_stmt st
      obtain ⟨hmore, hsecond⟩ := firstStray_all more
      unfold stmtsOf straysOf
      rw [List.head?_append]
      exact ⟨hlists.append hmore, .append hlists hfirst hsecond⟩

end

/-- The listing of a program, body after body. -/
theorem firstStray_program (p : Program) : ListsLoops p.stmts ∧ FirstStray p.stmts p.strays.head? := by
  unfold Program.stmts Program.strays
  induction p.bodies with
  | nil => exact ⟨.nil, .nil⟩
  | cons b bs ih =>
      obtain ⟨hlists, hfirst⟩ := firstStray_block b
      rw [List.flatMap_cons, List.flatMap_cons, List.head?_append]
      exact ⟨hlists.append ih.1, .append hlists hfirst ih.2⟩

/-! ## Generators -/

/-- Lowering fails with the first stray jump, whatever names were handed out before. -/
theorem codeWith_eq_error_iff_firstStray {p : Program} {s : Supply} {jump : StrayJump} :
    (p.codeWith s).1 = .error jump ↔ FirstStray p.stmts (some jump) := by
  have hfirst := (firstStray_program p).2
  rw [codeWith_eq_error_iff]
  constructor
  · intro hhead
    rwa [hhead] at hfirst
  · exact hfirst.unique

/-- Lowering fails exactly if there is a stray jump. -/
theorem codeWith_fails_iff (p : Program) (s : Supply) :
    (∃ jump, (p.codeWith s).1 = .error jump) ↔ ∃ j jump, StrayAt p.stmts j jump := by
  constructor
  · rintro ⟨jump, herror⟩
    obtain ⟨j, hj, _⟩ := codeWith_eq_error_iff_firstStray.mp herror
    exact ⟨j, jump, hj⟩
  · rintro ⟨j, jump, hj⟩
    have hfirst := (firstStray_program p).2
    cases hhead : p.strays.head? with
    | none =>
        rw [hhead] at hfirst
        exact absurd hj (hfirst j jump)
    | some jump' => exact ⟨jump', codeWith_eq_error_iff.mpr hhead⟩

/-- **A generator fails exactly at a stray jump.** Whatever names were handed out before, a program has no
    code exactly if a `break` or `continue` of it is inside no loop of its body, and the first one of these
    that is written is reported. So does a generator, whatever it was asked before and whether or not that
    failed, unless a count is full, which is so exactly if 32 bits do not hold the names. -/
theorem fails_at_first_stray {g : Generator} (hg : g.Reachable) (p : Program) :
    ListsLoops p.stmts ∧
    (∀ s, ((∃ jump, (p.codeWith s).1 = .error jump) ↔ ∃ j jump, StrayAt p.stmts j jump) ∧
      ∀ jump, (p.codeWith s).1 = .error jump ↔
        ∃ j, StrayAt p.stmts j jump ∧ ∀ i jump', i < j → ¬ StrayAt p.stmts i jump') ∧
    ((p.emitWith g).1 = .error .overflow ↔ ¬ (p.codeWith g.supply).2.Fits) ∧
    ((p.codeWith g.supply).2.Fits →
      ((∃ stop, (p.emitWith g).1 = .error stop) ↔ ∃ j jump, StrayAt p.stmts j jump) ∧
      ∀ jump, (p.emitWith g).1 = .error (.stray jump) ↔
        ∃ j, StrayAt p.stmts j jump ∧ ∀ i jump', i < j → ¬ StrayAt p.stmts i jump') := by
  refine ⟨(firstStray_program p).1,
    fun s => ⟨codeWith_fails_iff p s, fun jump => codeWith_eq_error_iff_firstStray⟩,
    emitWith_eq_overflow_iff p hg.loops_eq, fun hfits => ?_⟩
  have hemit := (emitWith_of_fits p hg.loops_eq hfits).1
  refine ⟨?_, fun jump => ?_⟩
  · rw [hemit, ← codeWith_fails_iff p g.supply]
    constructor
    · rintro ⟨stop, herror⟩
      obtain ⟨jump, hjump, _⟩ := Except.mapError_eq_error.mp herror
      exact ⟨jump, hjump⟩
    · rintro ⟨jump, hjump⟩
      exact ⟨.stray jump, Except.mapError_eq_error.mpr ⟨jump, hjump, rfl⟩⟩
  · have hfirst : (p.codeWith g.supply).1 = .error jump ↔ FirstStray p.stmts (some jump) :=
      codeWith_eq_error_iff_firstStray
    rw [hemit, Except.mapError_eq_error]
    constructor
    · rintro ⟨jump', hjump', hsame⟩
      cases hsame
      exact hfirst.mp hjump'
    · intro hstray
      exact ⟨jump, hfirst.mpr hstray, rfl⟩

/-- A routine with a loop and a stray `continue` behind it, in front of a stray `break`. -/
def twoStrays : Program :=
  ⟨[.routine ⟨⟨"f", {}⟩, [], none,
      ⟨[.while (.bool true {}) ⟨[.break {}], {}⟩ {}, .continue {}], {}⟩, {}⟩],
    ⟨[.break {}], {}⟩, {}⟩

/-- The generator has already failed behind a loop. The `continue` is reported: it is written in front of
    the other stray jump, and the jump in front of it is inside a loop. -/
theorem fails_at_first_stray_twoStrays :
    (twoStrays.emitWith (Generator.step {} (.code (loopThen [.break {}]))).after).1
      = .error (.stray ⟨.continue, {}⟩) ∧
    ∃ j, StrayAt twoStrays.stmts j ⟨.continue, {}⟩ ∧
      ∀ i jump, i < j → ¬ StrayAt twoStrays.stmts i jump := by
  have hreachable : (Generator.step {} (.code (loopThen [.break {}]))).after.Reachable :=
    .step _ .new (by decide +kernel)
  have hfits : (twoStrays.codeWith
      (Generator.step {} (.code (loopThen [.break {}]))).after.supply).2.Fits := by decide +kernel
  have herror : (twoStrays.emitWith (Generator.step {} (.code (loopThen [.break {}]))).after).1
      = .error (.stray ⟨.continue, {}⟩) := by decide +kernel
  obtain ⟨_, _, _, hgenerator⟩ := fails_at_first_stray hreachable twoStrays
  exact ⟨herror, ((hgenerator hfits).2 _).mp herror⟩

end TinyPascal
