import TinyPascal.Proofs.Code.Lowering

/-!
# `Proofs.Code.Sections` — code as a list of sections

The code of a program is one flat list: global declarations, and sections between their start and their
end. This module reads the sections back off the list (`sectionsOf`) and says which they are: one for
each routine, in order, and the main section last.

## Contents
- **Plain code.** `Instr.isPlain`: an instruction that stands inside sections. Lowered statements are
  plain.
- **Programs.** `lower_routine_eq_ok`, `lower_program_eq_ok`: what the code of a program is put together
  from. `lower_program_rec`: what holds of the code of each body, and is kept when code is put together,
  holds of the code of a program.
- **Sections.** `sectionsOf`; `sectionsOf_lower`: the sections of a program, outside of which nothing but
  declarations stands.
-/

namespace TinyPascal

/-! ## Plain code -/

/-- Instructions that stand inside sections. -/
def Instr.isPlain : Instr → Bool
  | .decl _ _ | .sectionStart _ _ _ _ | .sectionEnd _ _ => false
  | _ => true

/-- Instructions that declare global variables. -/
def Instr.isDecl : Instr → Bool
  | .decl _ _ => true
  | _ => false

mutual

/-- The code of an expression opens and ends no section. -/
theorem plain_lower : ∀ (e : Expr) (k : Nat), (e.lower k).code.all Instr.isPlain = true
  | .int _ _, _ | .bool _ _, _ | .var _ _, _ => rfl
  | .paren inner _, k => plain_lower inner k
  | .not operand _, k => by
      simp only [Expr.lower, List.all_append, plain_lower operand k]
      rfl
  | .binary _ left right _, k => by
      simp only [Expr.lower, List.all_append, plain_lower left k, plain_lower right _]
      rfl
  | .call _ args _, k => by
      simp only [Expr.lower, List.all_append, plain_lowerArgs args k]
      rfl

theorem plain_lowerArgs : ∀ (es : List Expr) (k : Nat),
    (lowerArgs es k).code.all Instr.isPlain = true
  | [], _ => rfl
  | e :: es, k => by
      simp only [lowerArgs, List.all_append, plain_lower e k, plain_lowerArgs es _]
      rfl

end

theorem plain_lowerPrints (es : List Expr) (k : Nat) :
    (lowerPrints es k).code.all Instr.isPlain = true := by
  induction es generalizing k with
  | nil => rfl
  | cons e es ih =>
      simp only [lowerPrints, List.all_append, plain_lower, ih]
      rfl

mutual

/-- **Statements stay inside their section.** -/
theorem plain_lower_stmt : ∀ (st : Stmt) {loop : Option Loop} {s s' : Supply} {code : List Instr},
    st.lower loop s = .ok code s' → code.all Instr.isPlain = true
  | .assign target value _, loop, s, s', code, h => by
      rw [lower_assign] at h
      cases h
      simp [plain_lower, Instr.isPlain]
  | .call callee args _, loop, s, s', code, h => by
      rw [lower_call] at h
      cases h
      exact plain_lower _ _
  | .return none _, loop, s, s', code, h => by
      rw [lower_return_none] at h
      cases h
      rfl
  | .return (some value) _, loop, s, s', code, h => by
      rw [lower_return_some] at h
      cases h
      simp [plain_lower, Instr.isPlain]
  | .ifThen cond yes _, loop, s, s', code, h => by
      obtain ⟨body, hb, rfl⟩ := lower_ifThen_eq_ok h
      have hbody := plain_lower_block yes hb
      simp only [Layout.ifThen, List.all_append, List.all_cons, List.all_nil, plain_lower, hbody]
      rfl
  | .ifElse cond yes no _, loop, s, s', code, h => by
      obtain ⟨a, s₁, b, ha, hb, rfl⟩ := lower_ifElse_eq_ok h
      have hyes := plain_lower_block yes ha
      have hno := plain_lower_block no hb
      simp only [Layout.ifElse, List.all_append, List.all_cons, List.all_nil, plain_lower, hyes, hno]
      rfl
  | .while cond body _, loop, s, s', code, h => by
      obtain ⟨a, ha, rfl⟩ := lower_while_eq_ok h
      have hbody := plain_lower_block body ha
      simp only [Layout.loop, List.all_append, List.all_cons, List.all_nil, plain_lower, hbody]
      rfl
  | .break _, none, s, s', code, h => by cases h
  | .break _, some l, s, s', code, h => by cases h; rfl
  | .continue _, none, s, s', code, h => by cases h
  | .continue _, some l, s, s', code, h => by cases h; rfl
  | .write args _, loop, s, s', code, h => by
      rw [lower_write] at h
      cases h
      exact plain_lowerPrints _ _

theorem plain_lower_block : ∀ (b : Block) {loop : Option Loop} {s s' : Supply} {code : List Instr},
    b.lower loop s = .ok code s' → code.all Instr.isPlain = true
  | ⟨statements, _⟩, _, _, _, _, h => plain_lowerAll statements h

theorem plain_lowerAll : ∀ (ss : List Stmt) {loop : Option Loop} {s s' : Supply}
    {code : List Instr}, lowerAll loop ss s = .ok code s' → code.all Instr.isPlain = true
  | [], loop, s, s', code, h => by cases h; rfl
  | first :: more, loop, s, s', code, h => by
      obtain ⟨a, s₁, b, ha, hb, rfl⟩ := lowerAll_cons_eq_ok h
      simp only [List.all_append, plain_lower_stmt first ha, plain_lowerAll more hb]
      rfl

end

/-! ## Programs -/

/-- A section: what its start says, and the instructions up to its end. -/
structure CodeSection where
  kind : SectionKind
  name : Option String
  params : List (String × Ty)
  result : Option Ty
  body : List Instr
deriving DecidableEq, Repr

/-- The instructions of a section, with its start and its end. -/
def CodeSection.code (sec : CodeSection) : List Instr :=
  .sectionStart sec.kind sec.name sec.params sec.result
    :: (sec.body ++ [.sectionEnd sec.kind sec.name])

/-- The single parameters of a routine, by name. -/
def Routine.typedParams (r : Routine) : List (String × Ty) :=
  (Param.flatten r.params).map (fun (name, ty) => (name.name, ty))

theorem Routine.sectionKind_eq (r : Routine) :
    r.sectionKind = if r.result.isSome then .function else .procedure := by
  unfold Routine.sectionKind
  cases r.result <;> rfl

/-- The section of a routine whose body has the given code. -/
def Routine.sectionOf (r : Routine) (body : List Instr) : CodeSection :=
  ⟨r.sectionKind, some r.name.name, r.typedParams, r.result, body⟩

/-- The main section, with the given code. -/
def CodeSection.main (body : List Instr) : CodeSection :=
  ⟨.main, none, [], none, body⟩

section Programs

variable {s s' : Supply} {code : List Instr}

/-- A routine lowers to its section around the code of its body. -/
theorem lower_routine_eq_ok {r : Routine} (h : r.lower s = .ok code s') :
    ∃ body, r.body.lower none s = .ok body s' ∧ code = (r.sectionOf body).code := by
  unfold Routine.lower at h
  obtain ⟨body, hbody, rfl⟩ := EStateM.bind_pure_eq_ok.mp h
  exact ⟨body, hbody, rfl⟩

/-- Behind a declaration of variables, lowering goes on from the same counts. -/
theorem lowerDecls_vars_eq_ok {decl : VarDecl} {ds : List Decl}
    (h : lowerDecls (.vars decl :: ds) s = .ok code s') :
    ∃ b, lowerDecls ds s = .ok b s' ∧ code = .decl (decl.names.map Ident.name) decl.ty :: b := by
  unfold lowerDecls at h
  exact EStateM.bind_pure_eq_ok.mp h

/-- Behind a routine, lowering goes on from the counts that its body leaves. -/
theorem lowerDecls_routine_eq_ok {r : Routine} {ds : List Decl}
    (h : lowerDecls (.routine r :: ds) s = .ok code s') :
    ∃ body s₁ b, r.body.lower none s = .ok body s₁ ∧ lowerDecls ds s₁ = .ok b s' ∧
      code = (r.sectionOf body).code ++ b := by
  unfold lowerDecls at h
  obtain ⟨a, s₁, ha, hrest⟩ := EStateM.bind_eq_ok.mp h
  obtain ⟨b, hb, rfl⟩ := EStateM.bind_pure_eq_ok.mp hrest
  obtain ⟨body, hbody, rfl⟩ := lower_routine_eq_ok ha
  exact ⟨body, s₁, b, hbody, hb, rfl⟩

/-- A program lowers to its declarations and then the main section. -/
theorem lower_program_eq_ok {p : Program} (h : p.lower s = .ok code s') :
    ∃ a s₁ body, lowerDecls p.declarations s = .ok a s₁ ∧ p.main.lower none s₁ = .ok body s' ∧
      code = a ++ (CodeSection.main body).code := by
  unfold Program.lower at h
  obtain ⟨a, s₁, ha, hrest⟩ := EStateM.bind_eq_ok.mp h
  obtain ⟨body, hbody, rfl⟩ := EStateM.bind_pure_eq_ok.mp hrest
  refine ⟨a, s₁, body, ha, hbody, ?_⟩
  simp [CodeSection.code, CodeSection.main]

theorem codeWith_eq_ok {p : Program} (h : p.codeWith s = (.ok code, s')) :
    p.lower s = .ok code s' := by
  unfold Program.codeWith at h
  split at h
  · next hlower =>
      cases h
      exact hlower
  · cases h

theorem code_eq_ok {p : Program} (h : p.code = .ok code) : ∃ s', p.lower {} = .ok code s' := by
  refine ⟨(p.codeWith {}).2, codeWith_eq_ok ?_⟩
  rw [← h]
  rfl

/-! ## From bodies to programs -/

/-- **What holds of the code of the bodies holds of the code of a program**, if it is kept when code is
    put together and says nothing about the instructions outside bodies. `P bs s s' code` is about code
    that holds the bodies `bs`. -/
theorem lower_program_rec {P : List Block → Supply → Supply → List Instr → Prop}
    (nil : ∀ s, P [] s s [])
    (outside : ∀ s (i : Instr), i.isPlain = false → P [] s s [i])
    (append : ∀ {bs bs' s s₁ s' a b}, P bs s s₁ a → P bs' s₁ s' b → P (bs ++ bs') s s' (a ++ b))
    (body : ∀ {b s s' code}, b.lower none s = .ok code s' → P [b] s s' code)
    {p : Program} (h : p.lower s = .ok code s') : P p.bodies s s' code := by
  have hsection : ∀ (sec : CodeSection) {b : Block} {s s' : Supply},
      b.lower none s = .ok sec.body s' → P [b] s s' sec.code := by
    intro sec b s s' hb
    have hstart := outside s (.sectionStart sec.kind sec.name sec.params sec.result) rfl
    have hend := outside s' (.sectionEnd sec.kind sec.name) rfl
    exact append hstart (append (body hb) hend)
  have hdecls : ∀ {ds s s' code}, lowerDecls ds s = .ok code s' →
      P ((ds.filterMap Decl.routine?).map Routine.body) s s' code := by
    intro ds
    induction ds with
    | nil =>
        intro s s' code h
        cases h
        exact nil s
    | cons d ds ih =>
        intro s s' code h
        cases d with
        | vars decl =>
            obtain ⟨b, hb, rfl⟩ := lowerDecls_vars_eq_ok h
            exact append (outside s (.decl (decl.names.map Ident.name) decl.ty) rfl) (ih hb)
        | routine r =>
            obtain ⟨body, s₁, b, hbody, hb, rfl⟩ := lowerDecls_routine_eq_ok h
            exact append (hsection (r.sectionOf body) hbody) (ih hb)
  obtain ⟨a, s₁, main, ha, hmain, rfl⟩ := lower_program_eq_ok h
  exact append (hdecls ha) (hsection (.main main) hmain)

end Programs

/-! ## Sections -/

/-- The instruction ends a section. -/
def Instr.isEnd : Instr → Bool
  | .sectionEnd _ _ => true
  | _ => false

/-- The sections of code, in order: each reaches from a start to the first end behind it. -/
def sectionsOf : List Instr → List CodeSection
  | [] => []
  | .sectionStart kind name params result :: rest =>
      ⟨kind, name, params, result, rest.takeWhile (fun i => !i.isEnd)⟩ :: sectionsOf rest
  | _ :: rest => sectionsOf rest

section Sections

variable {a b : List Instr}

/-- Plain code opens no section. -/
theorem sectionsOf_plain (h : a.all Instr.isPlain = true) : sectionsOf (a ++ b) = sectionsOf b := by
  induction a with
  | nil => rfl
  | cons i a ih =>
      rw [List.all_cons, Bool.and_eq_true] at h
      rw [← ih h.2]
      cases i with
      | sectionStart kind name params result => cases h.1
      | _ => rfl

/-- Plain code closes no section. -/
theorem takeWhile_plain {kind : SectionKind} {name : Option String}
    (h : a.all Instr.isPlain = true) :
    (a ++ .sectionEnd kind name :: b).takeWhile (fun i => !i.isEnd) = a := by
  have hopen : ∀ i ∈ a, (!i.isEnd) = true := by
    intro i hi
    have hplain := List.all_eq_true.mp h i hi
    cases i with
    | sectionEnd kind name => cases hplain
    | _ => rfl
  rw [List.takeWhile_append_of_pos hopen, List.takeWhile_cons_of_neg (by simp [Instr.isEnd]),
    List.append_nil]

/-- A section that is written out reads back. -/
theorem sectionsOf_code {sec : CodeSection} (h : sec.body.all Instr.isPlain = true) :
    sectionsOf (sec.code ++ b) = sec :: sectionsOf b := by
  unfold CodeSection.code
  rw [List.cons_append, List.append_assoc, List.singleton_append, sectionsOf, takeWhile_plain h,
    sectionsOf_plain h]
  rfl

/-- The plain instructions of a section are those of its body. -/
theorem filter_plain_code {sec : CodeSection} (h : sec.body.all Instr.isPlain = true) :
    sec.code.filter Instr.isPlain = sec.body := by
  have hbody : sec.body.filter Instr.isPlain = sec.body :=
    List.filter_eq_self.mpr (List.all_eq_true.mp h)
  unfold CodeSection.code
  rw [List.filter_cons_of_neg (by simp [Instr.isPlain]), List.filter_append, hbody,
    List.filter_cons_of_neg (by simp [Instr.isPlain]), List.filter_nil, List.append_nil]

/-- The code of a body, lowered with some supply. -/
def Block.LowersTo (b : Block) (code : List Instr) : Prop :=
  ∃ s s', b.lower none s = .ok code s'

/-- Code of declarations opens the sections of their routines, in order. -/
theorem sectionsOf_lowerDecls {ds : List Decl} {s s' : Supply} (h : lowerDecls ds s = .ok a s') :
    ∃ bodies : List (Routine × List Instr), bodies.map Prod.fst = ds.filterMap Decl.routine? ∧
      (∀ rb ∈ bodies, rb.1.body.LowersTo rb.2) ∧
      a.filter Instr.isPlain = bodies.flatMap Prod.snd ∧
      ∀ b, sectionsOf (a ++ b) = bodies.map (fun rb => rb.1.sectionOf rb.2) ++ sectionsOf b := by
  induction ds generalizing s a with
  | nil =>
      cases h
      exact ⟨[], rfl, by simp, rfl, fun b => rfl⟩
  | cons d ds ih =>
      cases d with
      | vars decl =>
          obtain ⟨b, hb, rfl⟩ := lowerDecls_vars_eq_ok h
          obtain ⟨bodies, hroutines, hlow, hplain, hmore⟩ := ih hb
          exact ⟨bodies, hroutines, hlow, hplain, hmore⟩
      | routine r =>
          obtain ⟨body, s₁, b, hbody, hb, rfl⟩ := lowerDecls_routine_eq_ok h
          obtain ⟨bodies, hroutines, hlow, hplain, hmore⟩ := ih hb
          have hin : (r.sectionOf body).body.all Instr.isPlain = true := plain_lower_block _ hbody
          refine ⟨(r, body) :: bodies, ?_, List.forall_mem_cons.mpr ⟨⟨s, s₁, hbody⟩, hlow⟩, ?_,
            fun c => ?_⟩
          · rw [List.map_cons, hroutines]
            rfl
          · rw [List.filter_append, filter_plain_code hin, hplain]
            rfl
          · rw [List.append_assoc, sectionsOf_code hin, hmore]
            rfl

/-- **The sections of a program** are those of its routines, in order, and the main section. Only
    declarations stand outside of them. -/
theorem sectionsOf_lower {p : Program} {s s' : Supply} {code : List Instr}
    (h : p.lower s = .ok code s') :
    ∃ (bodies : List (Routine × List Instr)) (main : List Instr),
      bodies.map Prod.fst = p.routines ∧ (∀ rb ∈ bodies, rb.1.body.LowersTo rb.2) ∧
      p.main.LowersTo main ∧
      sectionsOf code = bodies.map (fun rb => rb.1.sectionOf rb.2) ++ [.main main] ∧
      code.filter Instr.isPlain = (sectionsOf code).flatMap CodeSection.body := by
  obtain ⟨a, s₁, main, ha, hmain, rfl⟩ := lower_program_eq_ok h
  obtain ⟨bodies, hroutines, hlow, hplain, hmore⟩ := sectionsOf_lowerDecls ha
  have hin : (CodeSection.main main).body.all Instr.isPlain = true := plain_lower_block _ hmain
  have hlast : sectionsOf (CodeSection.main main).code = [.main main] := by
    have hone := sectionsOf_code (b := []) hin
    rwa [List.append_nil] at hone
  have hsections := hmore (CodeSection.main main).code
  rw [hlast] at hsections
  refine ⟨bodies, main, hroutines, hlow, ⟨s₁, s', hmain⟩, hsections, ?_⟩
  rw [hsections, List.filter_append, hplain, filter_plain_code hin, List.flatMap_append,
    List.flatMap_map, List.flatMap_singleton]
  rfl

end Sections

end TinyPascal
