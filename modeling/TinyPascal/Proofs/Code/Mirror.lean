import Mathlib.Data.List.Forall2
import Mathlib.Logic.ExistsUnique
import TinyPascal.Proofs.Code.Sections

/-!
# `Proofs.Code.Mirror` — the code of a program mirrors its declarations

The code of a program is read in two ways. From the tree, it is put together out of one part for each
declaration, in the same order, and the main section behind them (`Decl.Gives`). From the list alone, a
section is a **range** of instructions from a start to an end with the same kind and name, with plain
instructions between them (`IsSection`). Ranges that share an instruction are the same range, so each
instruction that declares no variables stands in exactly one section.

## Contents
- **Sections as ranges.** `IsSection`, with `IsSection.unique`; `Covered`: all instructions but
  declarations stand in sections.
- **Parts.** `Decl.Gives`; `gives_lowerDecls`: the code of declarations is made up of their parts.
- **Programs.** `code_mirrors_declarations`.
-/

namespace TinyPascal

/-! ## Sections as ranges -/

/-- The instruction starts a main section. -/
def Instr.startsMain : Instr → Bool
  | .sectionStart .main _ _ _ => true
  | _ => false

/-- The instructions from `first` to `last` are a section: its start, plain instructions, and an end of
    the same kind and name. -/
structure IsSection (code : List Instr) (first last : Nat) : Prop where
  lt : first < last
  ends : ∃ kind name params result,
    code[first]? = some (.sectionStart kind name params result) ∧
      code[last]? = some (.sectionEnd kind name)
  plain : ∀ i instr, first < i → i < last → code[i]? = some instr → instr.isPlain = true

namespace IsSection

variable {code more : List Instr} {a b a' b' i : Nat}

/-- No section starts or ends inside another one. -/
theorem first_le (h : IsSection code a b) (h' : IsSection code a' b') (hi : i ≤ b) (hi' : a' ≤ i) :
    a' ≤ a := by
  by_contra hlt
  obtain ⟨kind, name, params, result, _, hlast⟩ := h.ends
  obtain ⟨_, _, _, _, hfirst', _⟩ := h'.ends
  by_cases hend : a' = b
  · subst hend
    rw [hfirst'] at hlast
    cases hlast
  · have hplain := h.plain a' _ (by omega) (by omega) hfirst'
    cases hplain

/-- Of two sections that start at one index, neither ends behind the other. -/
theorem last_le (h : IsSection code a b) (h' : IsSection code a b') : b' ≤ b := by
  by_contra hlt
  obtain ⟨_, _, _, _, _, hlast⟩ := h.ends
  have hplain := h'.plain b _ h.lt (by omega) hlast
  cases hplain

/-- **Sections that share an instruction are the same.** -/
theorem unique (h : IsSection code a b) (h' : IsSection code a' b') (hi : a ≤ i ∧ i ≤ b)
    (hi' : a' ≤ i ∧ i ≤ b') : a = a' ∧ b = b' := by
  have hfirst : a = a' := Nat.le_antisymm (h'.first_le h hi'.2 hi.1) (h.first_le h' hi.2 hi'.1)
  subst hfirst
  exact ⟨rfl, Nat.le_antisymm (h'.last_le h) (h.last_le h')⟩

theorem append_right (h : IsSection code a b) : IsSection (code ++ more) a b := by
  obtain ⟨kind, name, params, result, hfirst, hlast⟩ := h.ends
  have hb : b < code.length := (List.getElem?_eq_some_iff.mp hlast).1
  have hlt := h.lt
  have hkeep : ∀ i, i ≤ b → (code ++ more)[i]? = code[i]? :=
    fun i hi => List.getElem?_append_left (by omega)
  refine ⟨hlt, ⟨kind, name, params, result, ?_, ?_⟩, fun i instr hai hib hi => ?_⟩
  · rw [hkeep a (by omega)]
    exact hfirst
  · rw [hkeep b (by omega)]
    exact hlast
  · rw [hkeep i (by omega)] at hi
    exact h.plain i instr hai hib hi

theorem append_left (h : IsSection code a b) :
    IsSection (more ++ code) (more.length + a) (more.length + b) := by
  obtain ⟨kind, name, params, result, hfirst, hlast⟩ := h.ends
  have hmove : ∀ i, (more ++ code)[more.length + i]? = code[i]? := by
    intro i
    rw [List.getElem?_append_right (by omega), Nat.add_sub_cancel_left]
  have hlt := h.lt
  refine ⟨by omega, ⟨kind, name, params, result, ?_, ?_⟩, fun i instr hai hib hi => ?_⟩
  · rw [hmove]
    exact hfirst
  · rw [hmove]
    exact hlast
  · obtain ⟨j, rfl⟩ : ∃ j, i = more.length + j := ⟨i - more.length, by omega⟩
    rw [hmove] at hi
    exact h.plain j instr (by omega) (by omega) hi

end IsSection

/-- Every instruction but declarations stands in a section. -/
def Covered (code : List Instr) : Prop :=
  ∀ i instr, code[i]? = some instr → instr.isDecl = false →
    ∃ first last, IsSection code first last ∧ first ≤ i ∧ i ≤ last

namespace Covered

variable {a b : List Instr}

theorem nil : Covered [] := by
  intro i instr hi
  cases hi

/-- Code put together from covered parts is covered. -/
theorem append (ha : Covered a) (hb : Covered b) : Covered (a ++ b) := by
  intro i instr hi hdecl
  by_cases hin : i < a.length
  · rw [List.getElem?_append_left hin] at hi
    obtain ⟨first, last, hsec, hle, hge⟩ := ha i instr hi hdecl
    exact ⟨first, last, hsec.append_right, hle, hge⟩
  · obtain ⟨j, rfl⟩ : ∃ j, i = a.length + j := ⟨i - a.length, by omega⟩
    rw [List.getElem?_append_right (by omega), Nat.add_sub_cancel_left] at hi
    obtain ⟨first, last, hsec, hle, hge⟩ := hb j instr hi hdecl
    exact ⟨a.length + first, a.length + last, hsec.append_left, by omega, by omega⟩

theorem decl {names : List String} {ty : Ty} : Covered [.decl names ty] := by
  intro i instr hi hdecl
  have hmem : instr ∈ [Instr.decl names ty] := List.mem_of_getElem? hi
  rw [List.mem_singleton] at hmem
  subst hmem
  cases hdecl

/-- A section covers itself. -/
theorem code {sec : CodeSection} (h : sec.body.all Instr.isPlain = true) : Covered sec.code := by
  have hlast : sec.code[sec.body.length + 1]? = some (.sectionEnd sec.kind sec.name) := by
    simp [CodeSection.code]
  have hsec : IsSection sec.code 0 (sec.body.length + 1) := by
    refine ⟨by omega, ⟨_, _, _, _, rfl, hlast⟩, fun i instr hpos hlt hi => ?_⟩
    -- behind the start and in front of the end stands the body
    obtain ⟨j, rfl⟩ : ∃ j, i = j + 1 := ⟨i - 1, by omega⟩
    have hj : j < sec.body.length := by omega
    have hbody : sec.body[j]? = some instr := by
      rwa [CodeSection.code, List.getElem?_cons_succ, List.getElem?_append_left hj] at hi
    exact List.all_eq_true.mp h instr (List.mem_of_getElem? hbody)
  intro i instr hi _
  have hlt : i < sec.code.length := (List.getElem?_eq_some_iff.mp hi).1
  have hlength : sec.code.length = sec.body.length + 2 := by simp [CodeSection.code]
  exact ⟨0, sec.body.length + 1, hsec, by omega, by omega⟩

end Covered

/-! ## Parts -/

/-- The part of the code that a declaration gives. Variables give one declaration of their names; a
    procedure and a function give a section, with their parameters one by one in the order of the groups,
    and a function with its result type. -/
inductive Decl.Gives : Decl → List Instr → Prop where
  | vars {decl : VarDecl} : Gives (.vars decl) [.decl (decl.names.map Ident.name) decl.ty]
  | procedure {r : Routine} {body : List Instr} : r.result = none → body.all Instr.isPlain = true →
      Gives (.routine r)
        (.sectionStart .procedure (some r.name.name)
            (r.params.flatMap (fun group => group.names.map (fun name => (name.name, group.ty)))) none
          :: (body ++ [.sectionEnd .procedure (some r.name.name)]))
  | function {r : Routine} {ty : Ty} {body : List Instr} : r.result = some ty →
      body.all Instr.isPlain = true →
      Gives (.routine r)
        (.sectionStart .function (some r.name.name)
            (r.params.flatMap (fun group => group.names.map (fun name => (name.name, group.ty))))
            (some ty)
          :: (body ++ [.sectionEnd .function (some r.name.name)]))

theorem Routine.typedParams_flatMap (r : Routine) :
    r.typedParams =
      r.params.flatMap (fun group => group.names.map (fun name => (name.name, group.ty))) := by
  unfold Routine.typedParams Param.flatten
  rw [List.map_flatMap]
  congr 1
  funext group
  rw [List.map_map]
  rfl

theorem Routine.sectionKind_ne_main (r : Routine) : r.sectionKind ≠ .main := by
  rw [r.sectionKind_eq]
  split <;> simp

/-- A routine gives its section. -/
theorem Decl.gives_sectionOf (r : Routine) {body : List Instr} (h : body.all Instr.isPlain = true) :
    Decl.Gives (.routine r) (r.sectionOf body).code := by
  unfold CodeSection.code Routine.sectionOf
  rw [Routine.typedParams_flatMap]
  cases hresult : r.result with
  | none =>
      have hkind : r.sectionKind = .procedure := by rw [r.sectionKind_eq, hresult]; rfl
      rw [hkind]
      exact .procedure hresult h
  | some ty =>
      have hkind : r.sectionKind = .function := by rw [r.sectionKind_eq, hresult]; rfl
      rw [hkind]
      exact .function hresult h

/-- A section starts a main section only where it is one itself. -/
theorem countP_startsMain_code {sec : CodeSection} (h : sec.body.all Instr.isPlain = true) :
    sec.code.countP Instr.startsMain = if sec.kind = .main then 1 else 0 := by
  have hbody : sec.body.countP Instr.startsMain = 0 := by
    rw [List.countP_eq_zero]
    intro instr hinstr
    have hplain := List.all_eq_true.mp h instr hinstr
    cases instr with
    | sectionStart kind name params result => cases hplain
    | _ => simp [Instr.startsMain]
  unfold CodeSection.code
  rw [List.countP_cons, List.countP_append, hbody]
  cases hkind : sec.kind <;> simp [Instr.startsMain]

/-- **The code of declarations is made up of their parts**, in order. It covers itself, and holds no main
    section. -/
theorem gives_lowerDecls {ds : List Decl} {s s' : Supply} {code : List Instr}
    (h : lowerDecls ds s = .ok code s') :
    (∃ parts, List.Forall₂ Decl.Gives ds parts ∧ code = parts.flatten) ∧ Covered code ∧
      code.countP Instr.startsMain = 0 := by
  induction ds generalizing s code with
  | nil =>
      cases h
      exact ⟨⟨[], .nil, rfl⟩, .nil, rfl⟩
  | cons d ds ih =>
      cases d with
      | vars decl =>
          obtain ⟨b, hb, rfl⟩ := lowerDecls_vars_eq_ok h
          obtain ⟨⟨parts, hparts, rfl⟩, hcovered, hmain⟩ := ih hb
          refine ⟨⟨_ :: parts, .cons .vars hparts, rfl⟩, Covered.decl.append hcovered, ?_⟩
          rw [List.countP_cons, hmain]
          rfl
      | routine r =>
          obtain ⟨body, s₁, b, hbody, hb, rfl⟩ := lowerDecls_routine_eq_ok h
          obtain ⟨⟨parts, hparts, rfl⟩, hcovered, hmain⟩ := ih hb
          have hplain : body.all Instr.isPlain = true := plain_lower_block _ hbody
          have hin : (r.sectionOf body).body.all Instr.isPlain = true := hplain
          have hkind : (r.sectionOf body).kind ≠ .main := r.sectionKind_ne_main
          refine ⟨⟨_ :: parts, .cons (Decl.gives_sectionOf r hplain) hparts, rfl⟩,
            (Covered.code hin).append hcovered, ?_⟩
          rw [List.countP_append, hmain, countP_startsMain_code hin, if_neg hkind]

/-! ## Programs -/

/-- **The code of a program mirrors its declarations.** It is made up of one part for each declaration,
    in the same order, and of the main section behind them; no other main section is in it. Each
    instruction that declares no variables stands in exactly one section. -/
theorem code_mirrors_declarations {p : Program} {code : List Instr} (h : p.code = .ok code) :
    (∃ (parts : List (List Instr)) (main : List Instr), List.Forall₂ Decl.Gives p.declarations parts ∧
      main.all Instr.isPlain = true ∧
      code = parts.flatten ++
        .sectionStart .main none [] none :: (main ++ [.sectionEnd .main none])) ∧
    code.countP Instr.startsMain = 1 ∧
    ∀ i instr, code[i]? = some instr → instr.isDecl = false →
      ∃! range : Nat × Nat, IsSection code range.1 range.2 ∧ range.1 ≤ i ∧ i ≤ range.2 := by
  obtain ⟨s', hlow⟩ := code_eq_ok h
  obtain ⟨a, s₁, main, ha, hmain, rfl⟩ := lower_program_eq_ok hlow
  obtain ⟨⟨parts, hparts, rfl⟩, hcovered, hcount⟩ := gives_lowerDecls ha
  have hplain : main.all Instr.isPlain = true := plain_lower_block _ hmain
  have hin : (CodeSection.main main).body.all Instr.isPlain = true := hplain
  refine ⟨⟨parts, main, hparts, hplain, rfl⟩, ?_, fun i instr hi hdecl => ?_⟩
  · rw [List.countP_append, hcount, countP_startsMain_code hin]
    rfl
  · obtain ⟨first, last, hsec, hle, hge⟩ := hcovered.append (Covered.code hin) i instr hi hdecl
    refine ⟨(first, last), ⟨hsec, hle, hge⟩, ?_⟩
    rintro ⟨first', last'⟩ ⟨hsec', hle', hge'⟩
    obtain ⟨rfl, rfl⟩ := hsec'.unique hsec ⟨hle', hge'⟩ ⟨hle, hge⟩
    rfl

/-- Variables between routines; a function with two groups of parameters, and statements with labels. -/
def interleaved : Program :=
  let here : Span := ⟨0, 0, 1, 1⟩
  let id (x : String) : Ident := ⟨x, here⟩
  let pick : Routine := ⟨id "pick", [⟨[id "a", id "b"], .integer, here⟩, ⟨[id "c"], .boolean, here⟩],
    some .integer, ⟨[.ifThen (.var "c" here) ⟨[.return (some (.var "a" here)) here], here⟩ here,
      .return (some (.var "b" here)) here], here⟩, here⟩
  let put : Routine := ⟨id "put", [], none, ⟨[.write [.var "n" here] here], here⟩, here⟩
  ⟨[.vars ⟨[id "n", id "m"], .integer, here⟩, .routine pick, .vars ⟨[id "p"], .boolean, here⟩,
    .routine put], ⟨[.while (.var "p" here) ⟨[.call (id "put") [] here, .break here], here⟩ here], here⟩,
    here⟩

theorem code_mirrors_declarations_interleaved :
    ∃ code, interleaved.code = .ok code ∧ code.countP Instr.startsMain = 1 ∧
      ∃! range : Nat × Nat, IsSection code range.1 range.2 ∧ range.1 ≤ 5 ∧ 5 ≤ range.2 := by
  refine ⟨_, rfl, ?_⟩
  obtain ⟨_, hmain, hsections⟩ := code_mirrors_declarations (p := interleaved) rfl
  exact ⟨hmain, hsections 5 _ rfl rfl⟩

end TinyPascal
