import TinyPascal.Proofs.Typing.Statements

/-!
# `Proofs.Typing.Decides` — checking decides the rules

Global names are declared first, so every routine is checked against all of them, in whatever order they
were declared. The parameters of a routine live in a scope of their own, which hides the global names and
is closed behind the body.

## Contents
- **Declarations.** `declareEach`: names that are declared one after the other.
- **Programs.** `routine_accepted_iff`, `check_iff_wellTyped`.
-/

namespace TinyPascal

/-! ## Declarations -/

/-- Declare names one after the other. -/
def declareEach : List (Ident × Symbol) → Check
  | [] => pure ()
  | (name, symbol) :: more => do
    Check.declare name symbol
    declareEach more

/-- The entries of a scope for names that are declared. -/
def entriesOf (names : List (Ident × Symbol)) : Scope :=
  names.map (fun (name, symbol) => (name.name, symbol))

/-- A line of variables declares its names in order. -/
theorem declareVars_eq (ty : Ty) (names : List Ident) :
    declareVars ty names = declareEach (names.map fun name => (name, .var ty name.span)) := by
  induction names with
  | nil => rfl
  | cons name more ih =>
      unfold declareVars
      rw [ih]
      rfl

/-- The parameters of a routine are declared in order. -/
theorem declareParams_eq (params : List (Ident × Ty)) :
    declareParams params = declareEach (params.map fun (name, ty) => (name, .param ty name.span)) := by
  induction params with
  | nil => rfl
  | cons param more ih =>
      unfold declareParams
      rw [ih]
      rfl

theorem declareEach_append (first second : List (Ident × Symbol)) :
    declareEach (first ++ second) = (do declareEach first; declareEach second) := by
  induction first with
  | nil => rfl
  | cons entry more ih =>
      obtain ⟨name, symbol⟩ := entry
      show (do Check.declare name symbol; declareEach (more ++ second)) = _
      rw [ih]
      exact (bind_assoc _ _ _).symm

/-- The names that a global declaration declares. -/
def Decl.declared : Decl → List (Ident × Symbol)
  | .vars decl => decl.names.map (fun name => (name, .var decl.ty name.span))
  | .routine r => [(r.name, .routine r.signature r.name.span)]

/-- The first pass declares what the declarations declare, in order. -/
theorem declareGlobals_eq (ds : List Decl) :
    declareGlobals ds = declareEach (ds.flatMap Decl.declared) := by
  induction ds with
  | nil => rfl
  | cons d ds ih =>
      cases d with
      | vars decl =>
          unfold declareGlobals
          rw [ih, List.flatMap_cons, declareEach_append, declareVars_eq]
          rfl
      | routine r =>
          unfold declareGlobals
          rw [ih]
          rfl

theorem lookup_append_singleton {s : Scope} {x y : String} {symbol : Symbol} :
    Scope.find? (s.add y symbol) x = none ↔ s.find? x = none ∧ x ≠ y := by
  unfold Scope.find? Scope.add
  induction s with
  | nil =>
      rw [List.nil_append, List.lookup_cons]
      by_cases hx : x = y
      · simp [hx]
      · simp [hx, beq_eq_false_iff_ne.mpr hx]
  | cons entry s ih =>
      rw [List.cons_append, List.lookup_cons, List.lookup_cons]
      cases x == entry.1
      · exact ih
      · simp

/-- **Names are declared if they are new and differ from each other.** They are then the last ones of the
    innermost scope. The induction is on the names: each is new behind those before it. -/
theorem declareEach_eq_ok {names : List (Ident × Symbol)} {t t' : Table} :
    declareEach names t = .ok () t' ↔
      ((entriesOf names).map Prod.fst).Nodup ∧
      (∀ x ∈ (entriesOf names).map Prod.fst, t.innermost.find? x = none) ∧
      t' = t.setInnermost (t.innermost ++ entriesOf names) := by
  induction names generalizing t with
  | nil =>
      have hsame : t.setInnermost (t.innermost ++ entriesOf []) = t := by
        rw [show entriesOf [] = [] from rfl, List.append_nil, Table.setInnermost_innermost]
      rw [hsame]
      show EStateM.Result.ok () t = .ok () t' ↔ _
      simp [entriesOf, eq_comm]
  | cons entry more ih =>
      obtain ⟨name, symbol⟩ := entry
      unfold declareEach
      rw [check_both]
      simp only [Check.declare, Check.change_eq_ok, Table.declare_eq_ok, ih]
      have hnames : (entriesOf ((name, symbol) :: more)).map Prod.fst
          = name.name :: (entriesOf more).map Prod.fst := rfl
      -- adding one name and then the others adds them all
      have htable : (t.setInnermost (t.innermost.add name.name symbol)).setInnermost
          (t.innermost.add name.name symbol ++ entriesOf more)
          = t.setInnermost (t.innermost ++ entriesOf ((name, symbol) :: more)) := by
        rw [Table.setInnermost_setInnermost]
        simp [Scope.add, entriesOf]
      rw [hnames, List.nodup_cons, List.forall_mem_cons]
      constructor
      · rintro ⟨_, ⟨hnew, rfl⟩, hnodup, hmore, rfl⟩
        rw [Table.innermost_setInnermost] at hmore ⊢
        have hboth := fun x hx => lookup_append_singleton.mp (hmore x hx)
        exact ⟨⟨fun hmem => (hboth _ hmem).2 rfl, hnodup⟩, ⟨hnew, fun x hx => (hboth x hx).1⟩, htable⟩
      · rintro ⟨⟨hnot, hnodup⟩, ⟨hnew, hmore⟩, rfl⟩
        refine ⟨_, ⟨hnew, rfl⟩, hnodup, fun x hx => ?_, ?_⟩
        · rw [Table.innermost_setInnermost]
          exact lookup_append_singleton.mpr ⟨hmore x hx, fun he => hnot (he ▸ hx)⟩
        · rw [Table.innermost_setInnermost]
          exact htable.symm

/-! ## Programs -/

/-- What the names of a scope stand for. -/
theorem find?_role (s : Scope) (x : String) :
    (s.find? x).map Symbol.role = (s.map (fun entry => (entry.1, entry.2.role))).lookup x := by
  unfold Scope.find?
  induction s with
  | nil => rfl
  | cons entry s ih =>
      obtain ⟨y, symbol⟩ := entry
      rw [List.map_cons, List.lookup_cons, List.lookup_cons, ← ih]
      cases x == y <;> rfl

theorem mem_of_lookup {roles : List (String × Role)} {x : String} {role : Role}
    (h : roles.lookup x = some role) : (x, role) ∈ roles := by
  obtain ⟨before, after, rfl, _⟩ := List.lookup_eq_some_iff.mp h
  exact List.mem_append_right _ List.mem_cons_self

/-- The scope of the parameters of a routine. -/
def Routine.scope (r : Routine) : Scope :=
  entriesOf ((Param.flatten r.params).map (fun (name, ty) => (name, .param ty name.span)))

theorem roles_scope (r : Routine) :
    r.scope.map (fun entry => (entry.1, entry.2.role)) = r.roles := by
  unfold Routine.scope entriesOf Routine.roles
  rw [List.map_map, List.map_map]
  rfl

theorem names_scope (r : Routine) : r.scope.map Prod.fst = r.roles.map Prod.fst := by
  rw [← roles_scope, List.map_map]
  rfl

section Programs

variable {t t' : Table}

/-- Parameters are declared in a scope of their own. -/
theorem declareParams_enter {r : Routine} :
    declareParams (Param.flatten r.params) t.enter = .ok () t' ↔
      (r.roles.map Prod.fst).Nodup ∧ t' = t.enter.setInnermost r.scope := by
  rw [declareParams_eq, declareEach_eq_ok, ← names_scope]
  constructor
  · rintro ⟨hnodup, _, rfl⟩
    exact ⟨hnodup, rfl⟩
  · rintro ⟨hnodup, rfl⟩
    exact ⟨hnodup, fun _ _ => rfl, rfl⟩

theorem roleOf_scope (r : Routine) :
    (t.enter.setInnermost r.scope).roleOf = r.names t.roleOf := by
  funext x
  rw [Table.roleOf_inner, find?_role, roles_scope]
  rfl

/-- **A routine is accepted if it keeps the rules.** -/
theorem routine_accepted_iff {r : Routine} :
    (∃ t', r.check t = .ok () t') ↔ r.WellTyped t.roleOf := by
  have hbody : (∃ t₂, checkAll { routine := some (r.name.name, r.result) } r.body.statements
      (t.enter.setInnermost r.scope) = .ok () t₂) ↔
        StmtsOk (r.names t.roleOf) (some r.result) false r.body.statements := by
    rw [← roleOf_scope]
    exact all_accepted_iff r.body.statements
  simp only [check_routine, declareParams_enter]
  constructor
  · rintro ⟨_, _, t₂, ⟨hnodup, rfl⟩, hall, _⟩
    exact ⟨hnodup, hbody.mp ⟨t₂, hall⟩⟩
  · rintro ⟨hnodup, hok⟩
    obtain ⟨t₂, hall⟩ := hbody.mpr hok
    exact ⟨_, _, t₂, ⟨hnodup, rfl⟩, hall, rfl⟩

/-- The parameters are forgotten behind the routine, and the rest is kept up to marks. -/
theorem unmarked_of_check_routine {r : Routine} (h : r.check t = .ok () t') :
    t'.unmarked = t.unmarked := by
  obtain ⟨t₁, t₂, hparams, hall, rfl⟩ := check_routine.mp h
  obtain ⟨_, rfl⟩ := declareParams_enter.mp hparams
  have hkeeps := keeps_checkAll r.body.statements { routine := some (r.name.name, r.result) }
    (t.enter.setInnermost r.scope)
  rw [hall] at hkeeps
  -- the scope of the parameters is closed, with all that was marked in it
  calc t₂.exit.unmarked = t₂.unmarked.exit := Table.unmarked_exit t₂
    _ = (t.enter.setInnermost r.scope).unmarked.exit := congrArg Table.exit hkeeps
    _ = (t.enter.setInnermost r.scope).exit.unmarked := (Table.unmarked_exit _).symm
    _ = t.unmarked := rfl

theorem unmarked_of_checkRoutines {ds : List Decl} (h : checkRoutines ds t = .ok () t') :
    t'.unmarked = t.unmarked := by
  induction ds generalizing t with
  | nil => cases h; rfl
  | cons d ds ih =>
      cases d with
      | vars decl => exact ih h
      | routine r =>
          unfold checkRoutines at h
          obtain ⟨t₁, hr, hmore⟩ := check_both.mp h
          rw [ih hmore, unmarked_of_check_routine hr]

/-- Routines are accepted one by one: none depends on those before it. -/
theorem routines_accepted_iff {ds : List Decl} :
    (∃ t', checkRoutines ds t = .ok () t') ↔
      ∀ r ∈ ds.filterMap Decl.routine?, r.WellTyped t.roleOf := by
  induction ds generalizing t with
  | nil =>
      constructor
      · intro _ r hr
        cases hr
      · intro _
        exact ⟨t, rfl⟩
  | cons d ds ih =>
      cases d with
      | vars decl => exact ih
      | routine r =>
          have hlist : (Decl.routine r :: ds).filterMap Decl.routine?
              = r :: ds.filterMap Decl.routine? := rfl
          unfold checkRoutines
          simp only [check_both]
          rw [hlist, List.forall_mem_cons]
          -- the other routines see the table that the first leaves, with the same names
          constructor
          · rintro ⟨t', t₁, hr, hmore⟩
            have hrest := ih.mp ⟨t', hmore⟩
            rw [Table.roleOf_of_unmarked (unmarked_of_check_routine hr)] at hrest
            exact ⟨routine_accepted_iff.mp ⟨t₁, hr⟩, hrest⟩
          · rintro ⟨hr, hrest⟩
            obtain ⟨t₁, hr'⟩ := routine_accepted_iff.mpr hr
            rw [← Table.roleOf_of_unmarked (unmarked_of_check_routine hr')] at hrest
            obtain ⟨t', hmore⟩ := ih.mpr hrest
            exact ⟨t', t₁, hr', hmore⟩

end Programs

/-- The entries that a program declares have its roles. -/
theorem roles_declared (p : Program) :
    (entriesOf (p.declarations.flatMap Decl.declared)).map (fun entry => (entry.1, entry.2.role))
      = p.roles := by
  unfold entriesOf Program.roles
  rw [List.map_map, List.map_flatMap]
  congr 1
  funext d
  cases d with
  | vars decl => exact List.map_map
  | routine r => rfl

/-- **The global names are declared if they differ**, and the table then gives the environment of the main
    block. -/
theorem declareGlobals_eq_ok {p : Program} {t : Table} :
    declareGlobals p.declarations {} = .ok () t ↔
      (p.roles.map Prod.fst).Nodup ∧ t = ⟨[], entriesOf (p.declarations.flatMap Decl.declared)⟩ := by
  have hnames : (entriesOf (p.declarations.flatMap Decl.declared)).map Prod.fst
      = p.roles.map Prod.fst := by
    rw [← roles_declared, List.map_map]
    rfl
  rw [declareGlobals_eq, declareEach_eq_ok, hnames]
  constructor
  · rintro ⟨hnodup, _, rfl⟩
    exact ⟨hnodup, rfl⟩
  · rintro ⟨hnodup, rfl⟩
    exact ⟨hnodup, fun _ _ => rfl, rfl⟩

theorem roleOf_declared (p : Program) :
    Table.roleOf ⟨[], entriesOf (p.declarations.flatMap Decl.declared)⟩ = p.names := by
  funext x
  show (List.findSome? (fun s => Scope.find? s x)
    [entriesOf (p.declarations.flatMap Decl.declared)]).map Symbol.role = _
  rw [List.findSome?_singleton, find?_role, roles_declared]
  rfl

/-- What passes the checks keeps the rules. -/
theorem wellTyped_of_check {p : Program} {t : Table} (h : p.check = .ok t) : p.WellTyped := by
  obtain ⟨t₁, t₂, hglobals, hroutines, hmain⟩ := check_eq_ok.mp h
  obtain ⟨hnodup, rfl⟩ := declareGlobals_eq_ok.mp hglobals
  have hr := routines_accepted_iff.mp ⟨t₂, hroutines⟩
  have hm := (block_accepted_iff p.main).mp ⟨t, hmain⟩
  rw [Table.roleOf_of_unmarked (unmarked_of_checkRoutines hroutines)] at hm
  rw [roleOf_declared] at hr hm
  exact ⟨hnodup, hr, hm⟩

/-- **Checking decides the rules.** A program passes its checks exactly if it is well typed. -/
theorem check_iff_wellTyped (p : Program) : (∃ t, p.check = .ok t) ↔ p.WellTyped := by
  simp only [check_eq_ok, declareGlobals_eq_ok]
  constructor
  · rintro ⟨t, t₁, t₂, ⟨hnodup, rfl⟩, hroutines, hmain⟩
    -- the main block sees the global names as they were declared
    have hkept := Table.roleOf_of_unmarked (unmarked_of_checkRoutines hroutines)
    have hr := routines_accepted_iff.mp ⟨t₂, hroutines⟩
    have hm := (block_accepted_iff p.main).mp ⟨t, hmain⟩
    rw [roleOf_declared] at hkept hr
    rw [hkept] at hm
    exact ⟨hnodup, hr, hm⟩
  · rintro ⟨hnodup, hr, hm⟩
    rw [← roleOf_declared] at hr hm
    obtain ⟨t₂, hroutines⟩ := routines_accepted_iff.mpr hr
    rw [← Table.roleOf_of_unmarked (unmarked_of_checkRoutines hroutines)] at hm
    obtain ⟨t, hmain⟩ : ∃ t, p.main.check {} t₂ = .ok () t := (block_accepted_iff p.main).mpr hm
    exact ⟨t, _, t₂, ⟨hnodup, rfl⟩, hroutines, hmain⟩

end TinyPascal
