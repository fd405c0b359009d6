import TinyPascal.Proofs.Code.StrayJumps
import TinyPascal.Proofs.Code.TypedCode
import TinyPascal.Proofs.Typing.Decides

/-!
# `Proofs.Code.TypePreservation` — the code of a checked program is well typed

The checks look names up in nested scopes; code has only the names themselves. This module shows that both
readings agree: what a name stands for in a routine is what the section of the routine makes of it. So
**the code of a checked program keeps the rules of places**, as long as no name is spelled like a
temporary.

## Contents
- **Names that hold values.** `storageOf`: the variables and parameters among declared names.
- **Global names in code.** `Exports`: code declares the global variables of a program, and has one
  section for each routine.
- **Programs.** `WellTypedCode`, `code_wellTyped`.
-/

namespace TinyPascal

/-! ## Names that hold values -/

/-- The type of the value that a name holds. A routine holds none. -/
def Role.storage? : Role → Option Ty
  | .var ty | .param ty => some ty
  | .routine _ => none

/-- The names that hold values, with their types. -/
def storageOf (roles : List (String × Role)) : List (String × Ty) :=
  roles.filterMap (fun entry => entry.2.storage?.map (fun ty => (entry.1, ty)))

theorem holds_iff {Γ : Names} {x : String} {ty : Ty} :
    Γ.Holds x ty ↔ (Γ x).bind Role.storage? = some ty := by
  unfold Names.Holds
  cases Γ x with
  | none => simp
  | some role => cases role <;> simp [Role.storage?]

/-- **Leaving routines out does not change what the other names hold**, if all names differ. -/
theorem lookup_storageOf {roles : List (String × Role)} (h : (roles.map Prod.fst).Nodup) (x : String) :
    (storageOf roles).lookup x = (roles.lookup x).bind Role.storage? := by
  induction roles with
  | nil => rfl
  | cons entry roles ih =>
      obtain ⟨y, role⟩ := entry
      rw [List.map_cons, List.nodup_cons] at h
      have hmore := ih h.2
      by_cases hxy : x = y
      · subst hxy
        have hnone : roles.lookup x = none := by
          rw [List.lookup_eq_none_iff]
          intro entry hentry
          simp only [bne_iff_ne]
          rintro rfl
          exact h.1 (List.mem_map.mpr ⟨entry, hentry, rfl⟩)
        rw [hnone] at hmore
        cases hrole : role.storage? with
        | none => simpa [storageOf, hrole] using hmore
        | some ty => simp [storageOf, hrole]
      · have hne : (x == y) = false := beq_eq_false_iff_ne.mpr hxy
        rw [List.lookup_cons, hne]
        cases hrole : role.storage? with
        | none => simpa [storageOf, hrole] using hmore
        | some ty => simpa [storageOf, hrole, List.lookup_cons, hne] using hmore

theorem storageOf_append (a b : List (String × Role)) :
    storageOf (a ++ b) = storageOf a ++ storageOf b :=
  List.filterMap_append

theorem typedParams_eq (r : Routine) : r.typedParams = storageOf r.roles := by
  unfold Routine.typedParams Routine.roles storageOf
  rw [List.filterMap_map, ← List.filterMap_eq_map]
  rfl

/-! ## Global names in code -/

/-- Plain code declares no variables. -/
theorem globalsOf_plain {a : List Instr} (h : a.all Instr.isPlain = true) : globalsOf a = [] := by
  unfold globalsOf
  rw [List.flatMap_eq_nil_iff]
  intro i hi
  have hplain := List.all_eq_true.mp h i hi
  cases i with
  | decl names ty => cases hplain
  | _ => rfl

theorem globalsOf_append (a b : List Instr) : globalsOf (a ++ b) = globalsOf a ++ globalsOf b :=
  List.flatMap_append

theorem globalsOf_section {sec : CodeSection} (h : sec.body.all Instr.isPlain = true) :
    globalsOf sec.code = [] := by
  have hbody := globalsOf_plain h
  unfold globalsOf at hbody ⊢
  simp [CodeSection.code, Instr.globals, hbody]

theorem globalsOf_lowerDecls {ds : List Decl} {s s' : Supply} {a : List Instr}
    (h : lowerDecls ds s = .ok a s') : globalsOf a = storageOf (ds.flatMap Decl.roles) := by
  induction ds generalizing s a with
  | nil =>
      cases h
      rfl
  | cons d ds ih =>
      rw [List.flatMap_cons, storageOf_append]
      cases d with
      | vars decl =>
          obtain ⟨b, hb, rfl⟩ := lowerDecls_vars_eq_ok h
          rw [← ih hb]
          simp [globalsOf, Instr.globals, storageOf, Decl.roles, Role.storage?, Function.comp_def]
      | routine r =>
          obtain ⟨body, s₁, b, hbody, hb, rfl⟩ := lowerDecls_routine_eq_ok h
          have hin : (r.sectionOf body).body.all Instr.isPlain = true := plain_lower_block _ hbody
          rw [globalsOf_append, globalsOf_section hin, ih hb]
          rfl

/-- **Code declares the global variables of its program.** -/
theorem globalsOf_lower {p : Program} {s s' : Supply} {code : List Instr}
    (h : p.lower s = .ok code s') : globalsOf code = storageOf p.roles := by
  obtain ⟨a, s₁, main, ha, hmain, rfl⟩ := lower_program_eq_ok h
  have hin : (CodeSection.main main).body.all Instr.isPlain = true := plain_lower_block _ hmain
  rw [globalsOf_append, globalsOf_section hin, globalsOf_lowerDecls ha, List.append_nil]
  rfl

/-- The names of routines are among the global names. -/
theorem routineNames_sublist (p : Program) :
    (p.routines.map (fun r => r.name.name)).Sublist (p.roles.map Prod.fst) := by
  unfold Program.routines Program.roles
  induction p.declarations with
  | nil => exact .slnil
  | cons d ds ih =>
      rw [List.flatMap_cons, List.map_append]
      cases d with
      | vars decl => exact ih.trans (List.sublist_append_right _ _)
      | routine r => exact ih.cons_cons r.name.name

/-- A global name that stands for a routine is the name of one. -/
theorem routine_of_role {p : Program} {f : String} {signature : Signature}
    (h : p.names f = some (.routine signature)) :
    ∃ r ∈ p.routines, r.name.name = f ∧ r.signature = signature := by
  obtain ⟨d, hd, hentry⟩ := List.mem_flatMap.mp (mem_of_lookup h)
  cases d with
  | vars decl => simp [Decl.roles] at hentry
  | routine r =>
      simp only [Decl.roles, List.mem_singleton, Prod.mk.injEq, Role.routine.injEq] at hentry
      exact ⟨r, List.mem_filterMap.mpr ⟨_, hd, rfl⟩, hentry.1.symm, hentry.2.symm⟩

/-- Where keys differ, a key finds one entry. -/
theorem filter_key_eq_singleton {α β : Type} [BEq β] [LawfulBEq β] {key : α → β} {l : List α} {a : α}
    (h : (l.map key).Nodup) (ha : a ∈ l) : l.filter (fun b => key b == key a) = [a] := by
  induction l with
  | nil => cases ha
  | cons b l ih =>
      rw [List.map_cons, List.nodup_cons] at h
      rcases List.mem_cons.mp ha with rfl | ha
      · rw [List.filter_cons_of_pos (by simp), List.filter_eq_nil_iff.mpr]
        intro c hc heq
        exact h.1 (List.mem_map.mpr ⟨c, hc, eq_of_beq heq⟩)
      · rw [List.filter_cons_of_neg, ih h.2 ha]
        intro heq
        exact h.1 (eq_of_beq heq ▸ List.mem_map.mpr ⟨a, ha, rfl⟩)

/-- **What code makes of the global names of a program**: it declares its variables, and has one section
    for each routine, with the parameters and the result of the routine. -/
structure Exports (p : Program) (code : List Instr) : Prop where
  globals : globalsOf code = storageOf p.roles
  routines : ∀ r ∈ p.routines, ∃ sec, sectionsNamed code r.name.name = [sec] ∧
    sec.params = r.typedParams ∧ sec.result = r.result

theorem exports_lower {p : Program} {s s' : Supply} {code : List Instr}
    (hnodup : (p.roles.map Prod.fst).Nodup) (h : p.lower s = .ok code s') : Exports p code := by
  refine ⟨globalsOf_lower h, fun r hr => ?_⟩
  obtain ⟨bodies, main, hroutines, _, _, hsections, _⟩ := sectionsOf_lower h
  have hnames : (sectionsOf code).map CodeSection.name
      = (p.routines.map (fun r => r.name.name)).map some ++ [none] := by
    rw [hsections, ← hroutines]
    simp [Routine.sectionOf, CodeSection.main]
  have hdiffer : ((sectionsOf code).map CodeSection.name).Nodup := by
    rw [hnames, List.nodup_append]
    refine ⟨?_, by simp, by simp⟩
    have hroutineNames := hnodup.sublist (routineNames_sublist p)
    exact List.Pairwise.map some (fun _ _ hne heq => hne (Option.some.inj heq)) hroutineNames
  rw [← hroutines] at hr
  obtain ⟨rb, hrb, rfl⟩ := List.mem_map.mp hr
  have hsection : rb.1.sectionOf rb.2 ∈ sectionsOf code := by
    rw [hsections]
    exact List.mem_append_left _ (List.mem_map.mpr ⟨rb, hrb, rfl⟩)
  exact ⟨_, filter_key_eq_singleton hdiffer hsection, rfl, rfl⟩

/-- A global name that stands for a routine finds one section, with the types of the routine. -/
theorem Exports.callee {p : Program} {code : List Instr} {f : String} {params : List Ty}
    {result : Option Ty} (h : Exports p code) (hf : p.names f = some (.routine ⟨params, result⟩)) :
    ∃ callee, sectionsNamed code f = [callee] ∧ callee.params.map Prod.snd = params ∧
      callee.result = result := by
  obtain ⟨r, hr, rfl, hsignature⟩ := routine_of_role hf
  obtain ⟨callee, hnamed, hparams, hresult⟩ := h.routines r hr
  have htypes : r.typedParams.map Prod.snd = r.signature.params := by
    simp [Routine.typedParams, Routine.signature, Function.comp_def]
  refine ⟨callee, hnamed, ?_, ?_⟩
  · rw [hparams, htypes, hsignature]
  · rw [hresult]
    exact congrArg Signature.result hsignature

/-! ## Programs -/

/-- Global names are spelled in the program. -/
theorem identifiers_of_roles {p : Program} {x : String} (h : x ∈ p.roles.map Prod.fst) :
    x ∈ p.identifiers := by
  obtain ⟨entry, hentry, rfl⟩ := List.mem_map.mp h
  obtain ⟨d, hd, hentry⟩ := List.mem_flatMap.mp hentry
  refine List.mem_append_left _ (List.mem_flatMap.mpr ⟨d, hd, ?_⟩)
  cases d with
  | vars decl =>
      obtain ⟨name, hname, rfl⟩ := List.mem_map.mp hentry
      exact List.mem_map.mpr ⟨name, hname, rfl⟩
  | routine r =>
      rw [List.mem_singleton.mp hentry]
      exact List.mem_cons_self

/-- Names without the spelling of a temporary are not found under one. -/
theorem lookup_tempName {roles : List (String × Role)}
    (h : ∀ x ∈ roles.map Prod.fst, isTempName x = false) (n : Nat) :
    roles.lookup (tempName n) = none := by
  rw [List.lookup_eq_none_iff]
  intro entry hentry
  have hclear := h entry.1 (List.mem_map.mpr ⟨entry, hentry, rfl⟩)
  exact bne_iff_ne.mpr (ne_tempName hclear n).symm

/-- **Sections see what routines see.** The local names `roles` are the parameters of a section, and
    behind them are the global names. -/
theorem Exports.sees {p : Program} {code : List Instr} {sec : CodeSection}
    {routine : Option (Option Ty)} (hexports : Exports p code) (roles : List (String × Role))
    (hglobals : (p.roles.map Prod.fst).Nodup) (hnames : ∀ x ∈ p.identifiers, isTempName x = false)
    (hlocals : (roles.map Prod.fst).Nodup) (hspelled : ∀ x ∈ roles.map Prod.fst, x ∈ p.identifiers)
    (hparams : sec.params = storageOf roles) (hstored : ∀ entry ∈ roles, entry.2.storage? ≠ none)
    (hprocedure : routine = some none → sec.kind = .procedure)
    (hfunction : ∀ {ty}, routine = some (some ty) → sec.kind = .function ∧ sec.result = some ty) :
    Sees code sec (fun x => (roles.lookup x).or (p.names x)) routine := by
  have hvariable : ∀ x, variableTy? code sec x
      = ((roles.lookup x).bind Role.storage?).or ((p.names x).bind Role.storage?) := by
    intro x
    unfold variableTy?
    rw [hparams, hexports.globals, lookup_storageOf hlocals, lookup_storageOf hglobals]
    rfl
  refine ⟨fun {x ty} hx => ?_, fun n => ?_, fun {f params result} hf => ?_, hprocedure, hfunction⟩
  · have hheld := holds_iff.mp hx
    rw [hvariable]
    cases hlookup : roles.lookup x with
    | none =>
        rw [hlookup] at hheld
        exact hheld
    | some role =>
        rw [hlookup] at hheld
        have hrole : role.storage? = some ty := hheld
        simp [hrole]
  · have hlocal := lookup_tempName (fun x hx => hnames x (hspelled x hx)) n
    have hglobal : p.names (tempName n) = none :=
      lookup_tempName (fun x hx => hnames x (identifiers_of_roles hx)) n
    rw [hvariable, hlocal, hglobal]
    rfl
  · cases hlookup : roles.lookup f with
    | some role =>
        -- local names are no routines
        rw [hlookup] at hf
        have hrole : role = .routine ⟨params, result⟩ := Option.some.inj hf
        exact absurd (by rw [hrole]; rfl) (hstored _ (mem_of_lookup hlookup))
    | none =>
        rw [hlookup] at hf
        exact hexports.callee hf

section Sections

variable {p : Program} {code body : List Instr}

/-- The section of a routine sees the names of the routine. -/
theorem sees_routine (hp : p.WellTyped) (hnames : ∀ x ∈ p.identifiers, isTempName x = false)
    (hexports : Exports p code) {r : Routine} (hr : r ∈ p.routines) :
    Sees code (r.sectionOf body) (r.names p.names) (some r.result) := by
  have hparamNames : r.roles.map Prod.fst = r.paramNames := by
    simp [Routine.roles, Routine.paramNames, Function.comp_def]
  refine hexports.sees r.roles hp.globals hnames (hp.routines r hr).params ?_ (typedParams_eq r) ?_ ?_ ?_
  · intro x hx
    rw [hparamNames] at hx
    exact identifiers_of_mem_routines hr x (List.mem_append_left _ hx)
  · intro entry hentry
    obtain ⟨param, _, rfl⟩ := List.mem_map.mp hentry
    exact Option.some_ne_none _
  · intro h
    simp [Routine.sectionOf, Routine.sectionKind, Option.some.inj h]
  · intro ty h
    simp [Routine.sectionOf, Routine.sectionKind, Option.some.inj h]

/-- The main section sees the global names. -/
theorem sees_main (hp : p.WellTyped) (hnames : ∀ x ∈ p.identifiers, isTempName x = false)
    (hexports : Exports p code) : Sees code (.main body) p.names none := by
  refine hexports.sees [] hp.globals hnames .nil ?_ rfl ?_ ?_ ?_
  · exact fun x hx => absurd hx List.not_mem_nil
  · exact fun entry hentry => absurd hentry List.not_mem_nil
  · exact fun h => absurd h.symm (Option.some_ne_none _)
  · exact fun h => absurd h.symm (Option.some_ne_none _)

end Sections

/-- **Well-typed code.** -/
structure WellTypedCode (code : List Instr) : Prop where
  /-- Only declarations stand outside of sections. -/
  inside : code.filter Instr.isPlain = (sectionsOf code).flatMap CodeSection.body
  /-- Each temporary is set by one instruction. -/
  temps : (tempsOf code).Nodup
  /-- No temporary is a parameter or a global variable. -/
  apart : ∀ sec ∈ sectionsOf code, ∀ x ∈ tempsOf code, variableTy? code sec x = none
  /-- An operand is a parameter of its section, a global variable, or a temporary that was set earlier in
      the section. -/
  operands : ∀ sec ∈ sectionsOf code, ∀ before i after, sec.body = before ++ i :: after →
    ∀ x ∈ i.reads, ∃ ty, placeTy? code sec before x = some ty
  /-- Instructions keep the rules of places. -/
  instrs : ∀ sec ∈ sectionsOf code, ∀ before i after, sec.body = before ++ i :: after →
    InstrOk code sec (placeTy? code sec before) i

/-- Every section of a well-typed program sees the names of its block, and keeps the rules of places. -/
theorem sees_of_mem_sections {p : Program} {s s' : Supply} {code : List Instr} {sec : CodeSection}
    (hp : p.WellTyped) (hnames : ∀ x ∈ p.identifiers, isTempName x = false)
    (hlower : p.lower s = .ok code s') (hsec : sec ∈ sectionsOf code) :
    (∃ Γ routine, Sees code sec Γ routine) ∧ PartOk code sec [] sec.body := by
  have hexports := exports_lower hp.globals hlower
  obtain ⟨bodies, main, hroutines, hbodies, ⟨s₁, s₂, hmain⟩, hsections, _⟩ := sectionsOf_lower hlower
  rw [hsections] at hsec
  rcases List.mem_append.mp hsec with hroutine | hlast
  · obtain ⟨rb, hrb, rfl⟩ := List.mem_map.mp hroutine
    obtain ⟨s₁, s₂, hbody⟩ := hbodies rb hrb
    have hr : rb.1 ∈ p.routines := hroutines ▸ List.mem_map.mpr ⟨rb, hrb, rfl⟩
    have hsees : Sees code (rb.1.sectionOf rb.2) _ _ := sees_routine hp hnames hexports hr
    exact ⟨⟨_, _, hsees⟩,
      partOk_lower_block hsees rb.1.body hbody (hp.routines rb.1 hr).body .nil⟩
  · rw [List.mem_singleton.mp hlast]
    have hsees : Sees code (.main main) _ _ := sees_main hp hnames hexports
    exact ⟨⟨_, _, hsees⟩, partOk_lower_block hsees p.main hmain hp.main .nil⟩

/-- **The code of a checked program is well typed.** -/
theorem code_wellTyped (p : Program) (t : Table) (hcheck : p.check = .ok t)
    (hnames : ∀ x ∈ p.identifiers, isTempName x = false) :
    ∃ code, p.code = .ok code ∧ WellTypedCode code := by
  obtain ⟨code, hcode⟩ := exists_code_of_check hcheck
  obtain ⟨s', hlower⟩ := code_eq_ok hcode
  have hp := wellTyped_of_check hcheck
  have htemps := (takesTemps_lower_program hlower).names
  obtain ⟨_, _, _, _, _, _, hinside⟩ := sectionsOf_lower hlower
  have hinstrs : ∀ sec ∈ sectionsOf code, ∀ before i after, sec.body = before ++ i :: after →
      InstrOk code sec (placeTy? code sec before) i := by
    intro sec hsec before i after hbody
    obtain ⟨_, hpart⟩ := sees_of_mem_sections hp hnames hlower hsec
    rw [hbody] at hpart
    exact hpart.instr
  refine ⟨code, hcode, hinside, ?_, ?_, ?_, hinstrs⟩
  · rw [htemps]
    exact nodup_tempNames _ _
  · intro sec hsec x hx
    obtain ⟨⟨Γ, routine, hsees⟩, _⟩ := sees_of_mem_sections hp hnames hlower hsec
    rw [htemps] at hx
    obtain ⟨n, _, _, rfl⟩ := mem_tempNames.mp hx
    exact hsees.temps n
  · intro sec hsec before i after hbody
    exact (hinstrs sec hsec before i after hbody).reads

/-- A parameter that hides a global variable of another type, a function that is declared behind its use
    and whose result is dropped once, and a procedure. -/
def shadowing : Program :=
  let here : Span := ⟨0, 0, 1, 1⟩
  let id (x : String) : Ident := ⟨x, here⟩
  let x : Expr := .var "x" here
  let y : Expr := .var "y" here
  let display : Block := ⟨[
    .ifThen (.call (id "less") [x, .int 9 here] here) ⟨[.return none here], here⟩ here,
    .write [x, .not (.binary .eq x (.int 0 here) here) here] here], here⟩
  let less : Block := ⟨[.return (some (.binary .lt x y here)) here], here⟩
  let main : Block := ⟨[
    .call (id "less") [.int 1 here, .int 2 here] here,
    .assign (id "x") (.binary .or (.call (id "less") [.int 3 here, .int 4 here] here) x here) here,
    .while x ⟨[.call (id "show") [.int 5 here] here, .break here], here⟩ here], here⟩
  ⟨[.vars ⟨[id "x"], .boolean, here⟩,
    .routine ⟨id "show", [⟨[id "x"], .integer, here⟩], none, display, here⟩,
    .routine ⟨id "less", [⟨[id "x", id "y"], .integer, here⟩], some .boolean, less, here⟩], main, here⟩

/-- The name `x` has a type of its own in each section. -/
theorem code_wellTyped_shadowing :
    ∃ code, shadowing.code = .ok code ∧ WellTypedCode code ∧
      (sectionsOf code).map (fun sec => (sec.name, variableTy? code sec "x"))
        = [(some "show", some .integer), (some "less", some .integer), (none, some .boolean)] := by
  obtain ⟨code, hcode, htyped⟩ := code_wellTyped shadowing _ rfl (by decide)
  refine ⟨code, hcode, htyped, ?_⟩
  have htypes : shadowing.code.toOption.map (fun code =>
      (sectionsOf code).map (fun sec => (sec.name, variableTy? code sec "x")))
        = some [(some "show", some .integer), (some "less", some .integer), (none, some .boolean)] := by
    decide +kernel
  rw [hcode] at htypes
  exact Option.some.inj htypes

end TinyPascal
