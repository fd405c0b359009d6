import TinyPascal.Proofs.Code.Sections
import TinyPascal.Proofs.Semantics.Forward

/-!
# `Proofs.Semantics.Linking` — the code of a program holds its sections

The code of a program is one list. A section is found by its start and cut off at the first end, so the
code of a body must hold neither a start nor an end of a section (`Instr.isPlain`).

## Contents
- **Finding sections.** `find?_lowerDecls`: declarations hold the sections of their routines, in order.
- **Linking.** `linked_of_code`.
-/

namespace TinyPascal

namespace Machine

/-! ## Finding sections -/

section Finding

variable {name : Option String} {body rest : List Instr}

/-- Plain code hides no section. -/
theorem find?_plain (h : body.all Instr.isPlain = true) :
    Section.find? name (body ++ rest) = Section.find? name rest := by
  induction body with
  | nil => rfl
  | cons i body ih =>
      rw [List.all_cons, Bool.and_eq_true] at h
      have hstep : Section.find? name (i :: (body ++ rest)) = Section.find? name (body ++ rest) := by
        cases i with
        | sectionStart kind n params result => cases h.1
        | _ => rfl
      exact hstep.trans (ih h.2)

/-- Plain code is cut off at the end behind it. -/
theorem upToEnd_plain {kind : SectionKind} {n : Option String} (h : body.all Instr.isPlain = true) :
    Section.upToEnd (body ++ .sectionEnd kind n :: rest) = body ++ [.sectionEnd kind n] := by
  induction body with
  | nil => rfl
  | cons i body ih =>
      rw [List.all_cons, Bool.and_eq_true] at h
      have hstep : Section.upToEnd (i :: (body ++ .sectionEnd kind n :: rest))
          = i :: Section.upToEnd (body ++ .sectionEnd kind n :: rest) := by
        cases i with
        | sectionEnd kind n => cases h.1
        | _ => rfl
      rw [List.cons_append, hstep, ih h.2, List.cons_append]

/-- A section in front of other code: it is found under its own name, and is skipped otherwise. -/
theorem find?_section {kind : SectionKind} {n : Option String} {params : List (String × Ty)}
    {result : Option Ty} (h : body.all Instr.isPlain = true) :
    Section.find? name (.sectionStart kind n params result :: (body ++ .sectionEnd kind n :: rest))
      = if n = name then some ⟨params.map Prod.fst, body ++ [.sectionEnd kind n]⟩
        else Section.find? name rest := by
  show (if n = name then _ else _) = _
  rw [upToEnd_plain h, find?_plain h]
  rfl

end Finding

theorem typedParams_names (r : Routine) : r.typedParams.map Prod.fst = r.paramNames := by
  unfold Routine.typedParams
  rw [List.map_map]
  rfl

/-- What the machine finds under `f` in code that starts with the sections of `rs`: the section of the
    first routine of that name, or else what stands behind. -/
def Finds (rs : List Routine) (f : String) (code rest : List Instr) : Prop :=
  match rs.find? (fun r => r.name.name = f) with
  | some r => ∃ s, Section.find? (some f) (code ++ rest) = some s ∧ s.params = r.paramNames ∧
      Compiled r.body s
  | none => Section.find? (some f) (code ++ rest) = Section.find? (some f) rest

/-- **Declarations hold the sections of their routines**, and no main section. -/
theorem find?_lowerDecls {ds : List Decl} {s s' : Supply} {code : List Instr}
    (h : lowerDecls ds s = .ok code s') (rest : List Instr) :
    (∀ f, Finds (ds.filterMap Decl.routine?) f code rest) ∧
      Section.find? none (code ++ rest) = Section.find? none rest := by
  induction ds generalizing s code with
  | nil =>
      cases h
      exact ⟨fun f => rfl, rfl⟩
  | cons d ds ih =>
      cases d with
      | vars decl =>
          obtain ⟨b, hb, rfl⟩ := lowerDecls_vars_eq_ok h
          obtain ⟨hfind, hmain⟩ := ih hb
          exact ⟨hfind, hmain⟩
      | routine r =>
          obtain ⟨body, s₁, b, hbody, hb, rfl⟩ := lowerDecls_routine_eq_ok h
          obtain ⟨hfind, hmain⟩ := ih hb
          -- the section of `r`, and behind it the code of the other declarations
          have hsec : ∀ name, Section.find? name ((r.sectionOf body).code ++ b ++ rest)
              = if some r.name.name = name then some ⟨r.typedParams.map Prod.fst,
                  body ++ [.sectionEnd r.sectionKind (some r.name.name)]⟩
                else Section.find? name (b ++ rest) := by
            intro name
            unfold CodeSection.code
            rw [List.cons_append, List.cons_append, List.append_assoc, List.append_assoc]
            exact find?_section (plain_lower_block _ hbody)
          refine ⟨fun f => ?_, ?_⟩
          · have htail := hfind f
            unfold Finds at htail ⊢
            rw [show (Decl.routine r :: ds).filterMap Decl.routine?
              = r :: ds.filterMap Decl.routine? from rfl, List.find?_cons, hsec]
            -- the first routine of a name is found; the search for any other name goes on behind it
            by_cases hname : r.name.name = f
            · simp only [hname, decide_true, if_true]
              exact ⟨_, rfl, typedParams_names r, body, s, s₁, _, _, hbody, rfl⟩
            · simp only [hname, decide_false, Option.some.injEq, if_false]
              exact htail
          · rw [hsec, if_neg (by simp)]
            exact hmain

/-! ## Linking -/

/-- **The code of a program is linked.** -/
theorem linked_of_code {p : Program} {program : List Instr} (h : p.code = .ok program) :
    Linked p program := by
  obtain ⟨s', hlow⟩ := code_eq_ok h
  obtain ⟨decls, s₁, main, hdecls, hmain, rfl⟩ := lower_program_eq_ok hlow
  -- the main section is a section like the others, but has no name
  have hsection : ∀ name, Section.find? name (CodeSection.main main).code
      = if none = name then some ⟨[], main ++ [.sectionEnd .main none]⟩ else none :=
    fun _ => find?_section (plain_lower_block _ hmain)
  obtain ⟨hfind, hnone⟩ := find?_lowerDecls hdecls (CodeSection.main main).code
  rw [hsection] at hnone
  refine ⟨fun {f r} hf => ?_, fun {f} hf => ?_, ⟨_, hnone, rfl, main, s₁, s', _, _, hmain, rfl⟩⟩
  · have hr := hfind f
    unfold Finds at hr
    rw [show (p.declarations.filterMap Decl.routine?).find? _ = some r from hf] at hr
    exact hr
  · have hr := hfind f
    unfold Finds at hr
    rw [show (p.declarations.filterMap Decl.routine?).find? _ = none from hf, hsection] at hr
    exact hr

end Machine
end TinyPascal
