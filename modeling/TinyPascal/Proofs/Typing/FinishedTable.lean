import Mathlib.Data.List.Nodup
import TinyPascal.Proofs.Typing.Decides

/-!
# `Proofs.Typing.FinishedTable` — what the table of a checked program says

Checking opens and closes scopes, and an assignment marks the nearest symbol of its target. Behind the
last check only the global scope is left. A global name is marked there exactly if an assignment reached
it: **one in the main block, or one in a routine that has no parameter of that name**.

## Contents
- **Marks in the global scope.** `Scope.markAll`; `Table.hides`: a name that an inner scope declares is out
  of reach.
- **Statements.** `globals_of_check`: checking marks the targets that are not hidden.
- **Programs.** `Program.assignedGlobals`, `table_of_check`.
- **Kinds of targets.** `holds_of_targets`: what is assigned to holds a value, so it is no routine.
- **The finished table.** `check_table_describes_globals`.
-/

namespace TinyPascal

/-! ## Marks in the global scope -/

/-- Mark names as assigned to. -/
def Scope.markAll (s : Scope) (xs : List String) : Scope :=
  s.map (fun entry => if entry.1 ∈ xs then (entry.1, entry.2.mark (some true)) else entry)

namespace Scope

theorem isSome_find? {s : Scope} {x : String} : (s.find? x).isSome = true ↔ x ∈ s.map Prod.fst := by
  unfold find?
  rw [List.lookup_isSome_iff, List.mem_map]
  constructor
  · rintro ⟨entry, hentry, hx⟩
    exact ⟨entry, hentry, (beq_iff_eq.mp hx).symm⟩
  · rintro ⟨entry, hentry, hx⟩
    exact ⟨entry, hentry, beq_iff_eq.mpr hx.symm⟩

@[simp] theorem markAll_nil (s : Scope) : s.markAll [] = s := by
  simp [markAll]

theorem markAll_singleton (s : Scope) (x : String) :
    s.markAll [x] = s.modify x (·.mark (some true)) := by
  simp [markAll, modify]

/-- Marking two lists of names one after the other. -/
theorem markAll_append (s : Scope) (xs ys : List String) :
    s.markAll (xs ++ ys) = (s.markAll xs).markAll ys := by
  unfold markAll
  rw [List.map_map]
  refine List.map_congr_left (fun entry _ => ?_)
  -- marking a name twice marks it once
  by_cases hx : entry.1 ∈ xs <;> by_cases hy : entry.1 ∈ ys <;> simp [hx, hy, Symbol.mark]

end Scope

namespace Table

/-- A scope inside the global one declares the name. -/
def hides (t : Table) (x : String) : Bool :=
  (t.locals.findSome? (fun s => s.find? x)).isSome

/-- The names that no inner scope hides. -/
def reached (t : Table) (xs : List String) : List String :=
  xs.filter (fun x => !t.hides x)

/-- The names that reach the global scope, of two lists. -/
theorem reached_append (t : Table) (xs ys : List String) :
    t.reached (xs ++ ys) = t.reached xs ++ t.reached ys :=
  List.filter_append _ _

@[simp] theorem hides_enter (t : Table) : t.enter.hides = t.hides := by
  funext x
  show (List.findSome? (fun s => Scope.find? s x) ([] :: t.locals)).isSome = _
  rw [List.findSome?_cons]
  rfl

@[simp] theorem reached_enter (t : Table) : t.enter.reached = t.reached := by
  funext xs
  unfold reached
  rw [hides_enter]

@[simp] theorem globals_exit (t : Table) : t.exit.globals = t.globals := by
  obtain ⟨locals, globals⟩ := t
  cases locals <;> rfl

/-- What is hidden does not depend on marks. -/
theorem reached_of_unmarked {t t' : Table} (h : t'.unmarked = t.unmarked) : t'.reached = t.reached := by
  have hhides : ∀ (t : Table) (x : String),
      t.hides x = (t.unmarked.locals.findSome? (fun s => s.find? x)).isSome := by
    intro t x
    show _ = ((t.locals.map Scope.unmarked).findSome? (fun s => s.find? x)).isSome
    rw [List.findSome?_map, hides, List.isSome_findSome?, List.isSome_findSome?]
    congr 1
    funext s
    show _ = (s.unmarked.find? x).isSome
    rw [Scope.find?_unmarked, Option.isSome_map]
  funext xs
  unfold reached
  congr 1
  funext x
  rw [hhides t', hhides t, h]

/-- An assignment marks a global name if it reaches it. -/
theorem globals_update {t t' : Table} {x : String} (h : t.update x (some true) = .ok t') :
    t'.globals = t.globals.markAll (t.reached [x]) := by
  obtain ⟨_, rfl⟩ := update_eq_ok.mp h
  unfold modify reached hides
  cases hfind : t.locals.findSome? (fun s => s.find? x) with
  | some symbol => simp [hfind]
  | none => simp [hfind, Scope.markAll_singleton]

end Table

/-! ## Statements -/

/-- What checking does to the table, with marks that reach the global scope one after the other. -/
theorem globals_trans {t t₁ t' : Table} {xs ys : List String} (hkept : t₁.unmarked = t.unmarked)
    (h₁ : t₁.globals = t.globals.markAll (t.reached xs))
    (h₂ : t'.globals = t₁.globals.markAll (t₁.reached ys)) :
    t'.globals = t.globals.markAll (t.reached (xs ++ ys)) := by
  rw [h₂, h₁, Table.reached_of_unmarked hkept, Table.reached_append, Scope.markAll_append]

mutual

/-- **Checking a statement marks its targets**, as far as they reach the global scope. -/
theorem globals_of_check : ∀ (s : Stmt) {ctx : Context} {t t' : Table},
    s.check ctx t = .ok () t' → t'.globals = t.globals.markAll (t.reached s.targets)
  | .assign target value _, ctx, t, t', h => Table.globals_update (check_assign.mp h).2
  | .call _ _ _, ctx, t, t', h => by
      obtain ⟨_, rfl⟩ := check_call.mp h
      exact (Scope.markAll_nil _).symm
  | .return _ _, ctx, t, t', h => by
      obtain ⟨_, rfl⟩ := check_return.mp h
      exact (Scope.markAll_nil _).symm
  | .ifThen _ yes _, ctx, t, t', h => globals_of_check_block yes (check_ifThen.mp h).2
  | .ifElse _ yes no _, ctx, t, t', h => by
      obtain ⟨_, t₁, hyes, hno⟩ := check_ifElse.mp h
      exact globals_trans ((keeps_check_block yes ctx).unmarked hyes)
        (globals_of_check_block yes hyes) (globals_of_check_block no hno)
  | .while _ body _, ctx, t, t', h => globals_of_check_block body (check_while.mp h).2
  | .break _, ctx, t, t', h => by
      obtain ⟨_, rfl⟩ := check_break.mp h
      exact (Scope.markAll_nil _).symm
  | .continue _, ctx, t, t', h => by
      obtain ⟨_, rfl⟩ := check_continue.mp h
      exact (Scope.markAll_nil _).symm
  | .write _ _, ctx, t, t', h => by
      obtain ⟨_, rfl⟩ := check_write.mp h
      exact (Scope.markAll_nil _).symm

/-- Checking a block marks in the global scope those of its targets that nothing hides. -/
theorem globals_of_check_block : ∀ (b : Block) {ctx : Context} {t t' : Table},
    b.check ctx t = .ok () t' → t'.globals = t.globals.markAll (t.reached b.targets)
  | ⟨statements, _⟩, ctx, t, t', h => by
      obtain ⟨t₁, hall, rfl⟩ := check_block.mp h
      have hglobals := globals_of_checkAll statements hall
      rw [Table.reached_enter] at hglobals
      rw [Table.globals_exit]
      exact hglobals

theorem globals_of_checkAll : ∀ (ss : List Stmt) {ctx : Context} {t t' : Table},
    checkAll ctx ss t = .ok () t' → t'.globals = t.globals.markAll (t.reached (targetsOf ss))
  | [], ctx, t, t', h => by
      obtain rfl := checkAll_nil.mp h
      exact (Scope.markAll_nil _).symm
  | s :: more, ctx, t, t', h => by
      obtain ⟨t₁, hs, hmore⟩ := checkAll_cons.mp h
      exact globals_trans ((keeps_check s ctx).unmarked hs) (globals_of_check s hs)
        (globals_of_checkAll more hmore)

end

/-! ## Programs -/

/-- The targets of a routine that are no parameters of it. -/
def Routine.globalTargets (r : Routine) : List String :=
  r.body.targets.filter (fun x => x ∉ r.paramNames)

/-- The names that assignments of a program reach in the global scope. -/
def Program.assignedGlobals (p : Program) : List String :=
  p.routines.flatMap Routine.globalTargets ++ p.main.targets

theorem names_of_scope (r : Routine) : r.scope.map Prod.fst = r.paramNames := by
  unfold Routine.scope entriesOf Routine.paramNames
  rw [List.map_map, List.map_map]
  rfl

section Programs

variable {t t' : Table}

/-- The parameters of a routine hide the global names, and nothing else does. -/
theorem reached_scope (r : Routine) (h : t.locals = []) :
    (t.enter.setInnermost r.scope).reached r.body.targets = r.globalTargets := by
  unfold Table.reached Routine.globalTargets
  congr 1
  funext x
  have hhides : (t.enter.setInnermost r.scope).hides x = (r.scope.find? x).isSome := by
    show (List.findSome? (fun s => Scope.find? s x) (r.scope :: t.locals)).isSome = _
    rw [h, List.findSome?_singleton]
  have hparam : (r.scope.find? x).isSome = decide (x ∈ r.paramNames) := by
    rw [Bool.eq_iff_iff, decide_eq_true_iff, ← names_of_scope]
    exact Scope.isSome_find?
  rw [hhides, hparam, decide_not]

/-- Checking a routine marks in the global scope the targets that its parameters do not hide. -/
theorem globals_of_check_routine {r : Routine} (hlocals : t.locals = [])
    (h : r.check t = .ok () t') : t'.globals = t.globals.markAll r.globalTargets := by
  obtain ⟨t₁, t₂, hparams, hall, rfl⟩ := check_routine.mp h
  obtain ⟨_, rfl⟩ := declareParams_enter.mp hparams
  have hglobals := globals_of_checkAll r.body.statements hall
  rw [← targets_block, reached_scope r hlocals] at hglobals
  rw [Table.globals_exit]
  exact hglobals

/-- Checking all routines marks the global targets of each. -/
theorem globals_of_checkRoutines {ds : List Decl} (hlocals : t.locals = [])
    (h : checkRoutines ds t = .ok () t') :
    t'.globals = t.globals.markAll ((ds.filterMap Decl.routine?).flatMap Routine.globalTargets) := by
  induction ds generalizing t with
  | nil =>
      cases h
      exact (Scope.markAll_nil _).symm
  | cons d ds ih =>
      cases d with
      | vars decl => exact ih hlocals h
      | routine r =>
          unfold checkRoutines at h
          obtain ⟨t₁, hr, hmore⟩ := check_both.mp h
          have hlocals₁ : t₁.locals = [] := by
            have hkept := congrArg Table.locals (unmarked_of_check_routine hr)
            simpa [Table.unmarked, hlocals] using hkept
          rw [ih hlocals₁ hmore, globals_of_check_routine hlocals hr, ← Scope.markAll_append]
          rfl

end Programs

/-- **The finished table**: the global names as they were declared, marked where they were assigned to. -/
theorem table_of_check {p : Program} {t : Table} (h : p.check = .ok t) :
    t.locals = [] ∧
      t.globals = (entriesOf (p.declarations.flatMap Decl.declared)).markAll p.assignedGlobals := by
  obtain ⟨t₁, t₂, hglobals, hroutines, hmain⟩ := check_eq_ok.mp h
  obtain ⟨_, rfl⟩ := declareGlobals_eq_ok.mp hglobals
  have hlocals₂ : t₂.locals = [] := by
    have hkept := congrArg Table.locals (unmarked_of_checkRoutines hroutines)
    simpa [Table.unmarked] using hkept
  have hlocals : t.locals = [] := by
    have hkept := congrArg Table.locals ((keeps_check_block p.main {}).unmarked hmain)
    simpa [Table.unmarked, hlocals₂] using hkept
  have hreached : t₂.reached p.main.targets = p.main.targets := by
    simp [Table.reached, Table.hides, hlocals₂]
  refine ⟨hlocals, ?_⟩
  rw [globals_of_check_block p.main hmain, hreached, globals_of_checkRoutines rfl hroutines,
    ← Scope.markAll_append]
  rfl

/-! ## Kinds of targets -/

section Targets

variable {Γ : Names} {routine : Option (Option Ty)}

mutual

/-- What is assigned to holds a value. -/
theorem holds_of_targets : ∀ (s : Stmt) {inLoop : Bool}, StmtOk Γ routine inLoop s →
    ∀ x ∈ s.targets, ∃ ty, Γ.Holds x ty
  | .assign target value _, inLoop, h, x, hx => by
      obtain ⟨ty, htarget, _⟩ := stmtOk_assign.mp h
      rw [Stmt.targets, List.mem_singleton] at hx
      exact ⟨ty, hx ▸ htarget⟩
  | .ifThen _ yes _, inLoop, h, x, hx => holds_of_targets_block yes (stmtOk_ifThen.mp h).2 x hx
  | .ifElse _ yes no _, inLoop, h, x, hx => by
      obtain ⟨_, hyes, hno⟩ := stmtOk_ifElse.mp h
      rcases List.mem_append.mp hx with hx | hx
      · exact holds_of_targets_block yes hyes x hx
      · exact holds_of_targets_block no hno x hx
  | .while _ body _, _, h, x, hx => holds_of_targets_block body (stmtOk_while.mp h).2 x hx
  | .call _ _ _, _, _, _, hx | .return _ _, _, _, _, hx | .break _, _, _, _, hx
  | .continue _, _, _, _, hx | .write _ _, _, _, _, hx => by cases hx

/-- In a well-typed block every target is a variable or a parameter. -/
theorem holds_of_targets_block : ∀ (b : Block) {inLoop : Bool},
    StmtsOk Γ routine inLoop b.statements → ∀ x ∈ b.targets, ∃ ty, Γ.Holds x ty
  | ⟨statements, _⟩, _, h, x, hx => holds_of_targetsOf statements h x hx

theorem holds_of_targetsOf : ∀ (ss : List Stmt) {inLoop : Bool}, StmtsOk Γ routine inLoop ss →
    ∀ x ∈ targetsOf ss, ∃ ty, Γ.Holds x ty
  | [], _, _, _, hx => by cases hx
  | s :: more, inLoop, h, x, hx => by
      obtain ⟨hs, hmore⟩ := stmtsOk_cons.mp h
      rcases List.mem_append.mp hx with hx | hx
      · exact holds_of_targets s hs x hx
      · exact holds_of_targetsOf more hmore x hx

end

end Targets

/-- Names that are no parameters of a routine stand for what they stand for outside of it. -/
theorem names_of_notMem_params {r : Routine} {x : String} (h : x ∉ r.paramNames) (Γ : Names) :
    r.names Γ x = Γ x := by
  have hnone : r.roles.lookup x = none := by
    rw [List.lookup_eq_none_iff]
    intro entry hentry
    rw [bne_iff_ne]
    rintro rfl
    apply h
    rw [← names_of_scope, names_scope]
    exact List.mem_map_of_mem hentry
  rw [Routine.names, hnone, Option.none_or]

/-- **What is assigned to in the global scope is a variable.** -/
theorem var_of_assignedGlobals {p : Program} (h : p.WellTyped) {x : String}
    (hx : x ∈ p.assignedGlobals) : ∃ ty, (x, .var ty) ∈ p.roles := by
  have hholds : ∃ ty, p.names.Holds x ty := by
    rcases List.mem_append.mp hx with hx | hx
    · obtain ⟨r, hr, hx⟩ := List.mem_flatMap.mp hx
      obtain ⟨htarget, hparam⟩ := List.mem_filter.mp hx
      obtain ⟨ty, hty⟩ := holds_of_targets_block r.body (h.routines r hr).body x htarget
      rw [Names.Holds, names_of_notMem_params (by simpa using hparam)] at hty
      exact ⟨ty, hty⟩
    · exact holds_of_targets_block p.main h.main x hx
  obtain ⟨ty, hty⟩ := hholds
  rcases hty with hty | hty
  · exact ⟨ty, mem_of_lookup hty⟩
  · -- no global declaration declares a parameter
    obtain ⟨d, _, hd⟩ := List.mem_flatMap.mp (mem_of_lookup hty)
    cases d <;> simp [Decl.roles] at hd

/-! ## The finished table -/

/-- Declared names carry no mark yet. -/
theorem unmarked_entriesOf_declared (ds : List Decl) :
    (entriesOf (ds.flatMap Decl.declared)).unmarked = entriesOf (ds.flatMap Decl.declared) := by
  unfold Scope.unmarked entriesOf
  rw [List.map_map]
  refine List.map_congr_left (fun entry hentry => ?_)
  obtain ⟨d, _, hd⟩ := List.mem_flatMap.mp hentry
  cases d with
  | vars decl =>
      obtain ⟨name, _, rfl⟩ := List.mem_map.mp hd
      rfl
  | routine r =>
      rw [Decl.declared, List.mem_singleton] at hd
      subst hd
      rfl

theorem Scope.unmarked_markAll (s : Scope) (xs : List String) :
    (s.markAll xs).unmarked = s.unmarked := by
  unfold unmarked markAll
  rw [List.map_map]
  refine List.map_congr_left (fun entry _ => ?_)
  by_cases hx : entry.1 ∈ xs
  · simp [hx, Symbol.mark, Symbol.unmarked]
  · simp [hx]

/-- **The finished table describes the global names.** If a program is accepted, only the global scope is
    left. It has one entry for each variable and each routine, in the order of declaration, with its
    kind, its types and the place of the declared name. An entry is marked exactly if it is a variable
    and there is an assignment to it, in the main block or in a routine without a parameter of that
    name. -/
theorem check_table_describes_globals (p : Program) (t : Table) (h : p.check = .ok t) :
    t.depth = 1 ∧ t.globals.unmarked = entriesOf (p.declarations.flatMap Decl.declared) ∧
      ∀ x symbol, (x, symbol) ∈ t.globals →
        (symbol.assigned = true ↔ (∃ ty, symbol.role = .var ty) ∧
          (x ∈ p.main.targets ∨ ∃ r ∈ p.routines, x ∈ r.body.targets ∧ x ∉ r.paramNames)) := by
  obtain ⟨hlocals, hglobals⟩ := table_of_check h
  have hwell := wellTyped_of_check h
  have hassigned : ∀ x, x ∈ p.assignedGlobals ↔
      x ∈ p.main.targets ∨ ∃ r ∈ p.routines, x ∈ r.body.targets ∧ x ∉ r.paramNames := by
    intro x
    simp [Program.assignedGlobals, Routine.globalTargets, or_comm]
  refine ⟨by rw [Table.depth, hlocals]; rfl, ?_, fun x symbol hmem => ?_⟩
  · rw [hglobals, Scope.unmarked_markAll, unmarked_entriesOf_declared]
  rw [← hassigned, and_comm]
  rw [hglobals] at hmem
  obtain ⟨⟨y, declared⟩, hdeclared, hentry⟩ := List.mem_map.mp hmem
  have hrole : (y, declared.role) ∈ p.roles := by
    rw [← roles_declared]
    exact List.mem_map_of_mem hdeclared
  have hfresh : declared.assigned = false := by
    rw [← unmarked_entriesOf_declared] at hdeclared
    obtain ⟨_, _, he⟩ := List.mem_map.mp hdeclared
    cases he
    rfl
  by_cases hy : y ∈ p.assignedGlobals
  · rw [if_pos hy] at hentry
    cases hentry
    -- the name has one role only, that of the variable which is assigned to
    obtain ⟨ty, hvar⟩ := var_of_assignedGlobals hwell hy
    have hsame := List.inj_on_of_nodup_map hwell.globals hrole hvar rfl
    exact ⟨fun _ => ⟨hy, ty, congrArg Prod.snd hsame⟩, fun _ => rfl⟩
  · rw [if_neg hy] at hentry
    cases hentry
    rw [hfresh]
    exact ⟨fun hfalse => absurd hfalse (by simp), fun ⟨hx, _⟩ => absurd hx hy⟩

/-- The procedure assigns to its parameter `a` and, deep inside, to the global `b`; nothing is run. -/
def hiddenTarget : Program :=
  let here : Span := ⟨0, 0, 1, 1⟩
  let id (x : String) : Ident := ⟨x, here⟩
  let inner : Block := ⟨[.assign (id "b") (.int 2 here) here], here⟩
  let body : Block := ⟨[.assign (id "a") (.int 1 here) here,
    .while (.bool false here) ⟨[.ifThen (.bool true here) inner here], here⟩ here], here⟩
  ⟨[.vars ⟨[id "a", id "b"], .integer, here⟩,
    .routine ⟨id "p", [⟨[id "a"], .integer, here⟩], none, body, here⟩], ⟨[], here⟩, here⟩

/-- The global `a` is never assigned to, since the parameter hides it. -/
theorem check_table_describes_globals_hiddenTarget :
    ∃ t, hiddenTarget.check = .ok t ∧ t.depth = 1 ∧
      t.globals.map (fun entry => (entry.1, entry.2.assigned)) =
        [("a", false), ("b", true), ("p", false)] ∧
      ∀ symbol, ("a", symbol) ∈ t.globals → symbol.assigned = false := by
  have hmarks : hiddenTarget.check.toOption.map
      (fun t => t.globals.map (fun entry => (entry.1, entry.2.assigned))) =
        some [("a", false), ("b", true), ("p", false)] := by decide +kernel
  obtain ⟨t, ht, hmarks⟩ := Option.map_eq_some_iff.mp hmarks
  have hcheck : hiddenTarget.check = .ok t := Except.eq_ok_of_toOption ht
  obtain ⟨hdepth, _, hiff⟩ := check_table_describes_globals hiddenTarget t hcheck
  refine ⟨t, hcheck, hdepth, hmarks, fun symbol hmem => ?_⟩
  rw [← Bool.not_eq_true, hiff "a" symbol hmem]
  rintro ⟨_, htargets⟩
  revert htargets
  decide +kernel

end TinyPascal
