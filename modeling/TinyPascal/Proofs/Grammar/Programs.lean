import TinyPascal.Proofs.Grammar.Statements
import TinyPascal.Tree.Parser.Program

/-!
# `Proofs.Grammar.Programs` — declarations and programs are read as the grammar says

## Contents
- **What each parser reads.** From `separated_names` to `reads_program`.
- **Variables and parameters**, **routines** and **programs**: the forms that the grammar gives them,
  and that the parsers are sound and complete for them. `sound_program`, `complete_program`.
-/

namespace TinyPascal

/-! ## What each parser reads -/

namespace Parser

section Variables

variable {ts rest : List Token}

theorem separated_names : Separated .comma identifier names := by
  refine .of_step (fun ts => ?_)
  rw [names]
  rfl

/-- A line of variables is names, a colon, a type and a semicolon, and reaches from its first name to the
    semicolon. -/
theorem reads_varLine {line : VarDecl} :
    Reads (varLine ts) line rest ↔ ∃ declared colon ty span stop,
      Reads (names ts) declared (⟨.punct .colon, colon⟩ :: ⟨.keyword (tyWord ty), span⟩ ::
        ⟨.punct .semicolon, stop⟩ :: rest) ∧
      line = ⟨declared, ty, (startOf ts).merge stop⟩ := by
  rw [varLine]
  constructor
  · intro h
    obtain ⟨declared, r, hnames, _, hrest⟩ := reads_bind.mp h
    obtain ⟨colon, r₁, hcolon, _, hrest⟩ := reads_bind.mp hrest
    obtain ⟨⟨ty, span⟩, r₂, hty, _, hrest⟩ := reads_bind.mp hrest
    obtain ⟨stop, r₃, hstop, _, hrest⟩ := reads_bind.mp hrest
    obtain ⟨rfl, rfl⟩ := reads_ok.mp hrest
    cases reads_expect.mp hcolon
    cases reads_typeName.mp hty
    cases reads_expect.mp hstop
    exact ⟨declared, colon, ty, span, stop, hnames, rfl⟩
  · rintro ⟨declared, colon, ty, span, stop, hnames, rfl⟩
    refine hnames.bind fun _ => ?_
    refine (reads_expect.mpr rfl).bind fun _ => ?_
    refine (reads_typeName.mpr rfl).bind fun _ => ?_
    refine (reads_expect.mpr rfl).bind fun _ => ?_
    exact reads_ok.mpr ⟨rfl, rfl⟩

/-- The kind is that of a name. -/
def isName : Token.Kind → Bool
  | .ident _ => true
  | _ => false

/-- The next token is a name, or none. -/
theorem atName_cases (ts : List Token) :
    (atName ts = true ∧ ∃ x span r, ts = ⟨.ident x, span⟩ :: r) ∨
      (atName ts = false ∧ Stops isName ts) := by
  unfold atName
  split
  · exact .inl ⟨rfl, _, _, _, rfl⟩
  · next hno =>
      refine .inr ⟨rfl, ?_⟩
      cases ts with
      | nil => exact stops_nil
      | cons t r =>
          refine stops_cons.mpr ?_
          unfold isName
          split
          · next x hx => exact absurd (by rw [← hx]) (hno x t.span r)
          · rfl

theorem atName_of_stops (h : Stops isName ts) : atName ts = false := by
  rcases atName_cases ts with ⟨_, x, span, r, rfl⟩ | ⟨hno, _⟩
  · cases stops_cons.mp h
  · exact hno

/-- Lines of variables go on as long as a name follows. -/
theorem reads_varLines {lines : List VarDecl} :
    Reads (varLines ts) lines rest ↔ ∃ first r, Reads (varLine ts) first r ∧
      ((Stops isName r ∧ lines = [first] ∧ rest = r) ∨
        (atName r = true ∧ ∃ more, Reads (varLines r) more rest ∧ lines = first :: more)) := by
  rw [varLines]
  constructor
  · intro h
    obtain ⟨first, r, hfirst, _, hrest⟩ := reads_bind.mp h
    refine ⟨first, r, hfirst, ?_⟩
    rcases atName_cases r with ⟨hname, _⟩ | ⟨hname, hstop⟩
    · simp only [hname, if_true] at hrest
      obtain ⟨more, r₁, hmore, _, hrest⟩ := reads_bind.mp hrest
      obtain ⟨rfl, rfl⟩ := reads_ok.mp hrest
      exact .inr ⟨hname, more, hmore, rfl⟩
    · simp only [hname, Bool.false_eq_true, if_false] at hrest
      exact .inl ⟨hstop, reads_ok.mp hrest⟩
  · rintro ⟨first, r, hfirst, ⟨hstop, rfl, rfl⟩ | ⟨hname, more, hmore, rfl⟩⟩
    · refine hfirst.bind fun _ => ?_
      simp only [atName_of_stops hstop, Bool.false_eq_true, if_false]
      exact reads_ok.mpr ⟨rfl, rfl⟩
    · refine hfirst.bind fun _ => ?_
      simp only [hname, if_true]
      exact hmore.bind fun _ => reads_ok.mpr ⟨rfl, rfl⟩

/-- Sections of variables go on as long as a `var` follows, and their lines are put together. -/
theorem reads_varSections {lines : List VarDecl} :
    Reads (varSections ts) lines rest ↔
      (Stops (is (.keyword .var)) ts ∧ lines = [] ∧ rest = ts) ∨
      ∃ span r first r₁ more, ts = ⟨.keyword .var, span⟩ :: r ∧ Reads (varLines r) first r₁ ∧
        Reads (varSections r₁) more rest ∧ lines = first ++ more := by
  rw [varSections]
  constructor
  · intro h
    rcases accept_cases (.keyword .var) ts with ⟨hnone, hstop⟩ | ⟨span, r, rfl⟩
    · simp only [hnone] at h
      exact .inl ⟨hstop, reads_ok.mp h⟩
    · simp only [accept_cons, Parsed.behind] at h
      obtain ⟨first, r₁, hfirst, _, h⟩ := reads_bind.mp h
      obtain ⟨more, r₂, hmore, _, h⟩ := reads_bind.mp h
      obtain ⟨rfl, rfl⟩ := reads_ok.mp h
      exact .inr ⟨span, r, first, r₁, more, rfl, hfirst, hmore, rfl⟩
  · rintro (⟨hstop, rfl, rfl⟩ | ⟨span, r, first, r₁, more, rfl, hfirst, hmore, rfl⟩)
    · simp only [accept_of_stops hstop]
      exact reads_ok.mpr ⟨rfl, rfl⟩
    · simp only [accept_cons, Parsed.behind]
      refine hfirst.bind fun _ => ?_
      refine hmore.bind fun _ => ?_
      exact reads_ok.mpr ⟨rfl, rfl⟩

/-- A group of parameters is names, a colon and a type, and reaches from its first name to the type. -/
theorem reads_param {group : Param} :
    Reads (param ts) group rest ↔ ∃ declared colon ty stop,
      Reads (names ts) declared (⟨.punct .colon, colon⟩ :: ⟨.keyword (tyWord ty), stop⟩ :: rest) ∧
      group = ⟨declared, ty, (startOf ts).merge stop⟩ := by
  rw [param]
  constructor
  · intro h
    obtain ⟨declared, r, hnames, _, hrest⟩ := reads_bind.mp h
    obtain ⟨colon, r₁, hcolon, _, hrest⟩ := reads_bind.mp hrest
    obtain ⟨⟨ty, stop⟩, r₂, hty, _, hrest⟩ := reads_bind.mp hrest
    obtain ⟨rfl, rfl⟩ := reads_ok.mp hrest
    cases reads_expect.mp hcolon
    cases reads_typeName.mp hty
    exact ⟨declared, colon, ty, stop, hnames, rfl⟩
  · rintro ⟨declared, colon, ty, stop, hnames, rfl⟩
    refine hnames.bind fun _ => ?_
    refine (reads_expect.mpr rfl).bind fun _ => ?_
    refine (reads_typeName.mpr rfl).bind fun _ => ?_
    exact reads_ok.mpr ⟨rfl, rfl⟩

theorem separated_paramGroups : Separated .semicolon param paramGroups := by
  refine .of_step (fun ts => ?_)
  rw [paramGroups]
  rfl

/-- Parameters: a closing parenthesis, or groups and a closing parenthesis. -/
theorem reads_params {groups : List Param} :
    Reads (params ts) groups rest ↔
      (∃ span, ts = ⟨.punct .rparen, span⟩ :: rest ∧ groups = []) ∨
      (Stops (is (.punct .rparen)) ts ∧
        ∃ span, Reads (paramGroups ts) groups (⟨.punct .rparen, span⟩ :: rest)) := by
  rw [params]
  constructor
  · intro h
    rcases accept_cases (.punct .rparen) ts with ⟨hnone, hstop⟩ | ⟨span, r, rfl⟩
    · simp only [hnone] at h
      obtain ⟨groups', r, hgroups, _, h⟩ := reads_bind.mp h
      obtain ⟨span, r₁, hclose, _, h⟩ := reads_bind.mp h
      obtain ⟨rfl, rfl⟩ := reads_ok.mp h
      cases reads_expect.mp hclose
      exact .inr ⟨hstop, span, hgroups⟩
    · simp only [accept_cons, Parsed.behind] at h
      obtain ⟨rfl, rfl⟩ := reads_ok.mp h
      exact .inl ⟨span, rfl, rfl⟩
  · rintro (⟨span, rfl, rfl⟩ | ⟨hstop, span, hgroups⟩)
    · simp only [accept_cons, Parsed.behind]
      exact reads_ok.mpr ⟨rfl, rfl⟩
    · simp only [accept_of_stops hstop]
      refine hgroups.bind fun _ => ?_
      refine (reads_expect.mpr rfl).bind fun _ => ?_
      exact reads_ok.mpr ⟨rfl, rfl⟩

end Variables

section Routines

variable {ts rest : List Token}

/-- A procedure has parameters if a parenthesis follows its name. -/
theorem reads_procedureParams {groups : List Param} :
    Reads (procedureParams ts) groups rest ↔
      (Stops (is (.punct .lparen)) ts ∧ groups = [] ∧ rest = ts) ∨
      ∃ span r, ts = ⟨.punct .lparen, span⟩ :: r ∧ Reads (params r) groups rest := by
  rw [procedureParams]
  constructor
  · intro h
    rcases accept_cases (.punct .lparen) ts with ⟨hnone, hstop⟩ | ⟨span, r, rfl⟩
    · simp only [hnone] at h
      exact .inl ⟨hstop, reads_ok.mp h⟩
    · simp only [accept_cons, Parsed.behind] at h
      obtain ⟨groups', r₁, hgroups, _, h⟩ := reads_bind.mp h
      obtain ⟨rfl, rfl⟩ := reads_ok.mp h
      exact .inr ⟨span, r, rfl, hgroups⟩
  · rintro (⟨hstop, rfl, rfl⟩ | ⟨span, r, rfl, hgroups⟩)
    · simp only [accept_of_stops hstop]
      exact reads_ok.mpr ⟨rfl, rfl⟩
    · simp only [accept_cons, Parsed.behind]
      exact hgroups.bind fun _ => reads_ok.mpr ⟨rfl, rfl⟩

/-- A procedure is a name, parameters, a semicolon, a block and a semicolon. -/
theorem reads_procedure {start : Span} {v : Routine} :
    Reads (procedure start ts) v rest ↔ ∃ name r groups semi r₁ body stop,
      ts = ⟨.ident name.name, name.span⟩ :: r ∧
      Reads (procedureParams r) groups (⟨.punct .semicolon, semi⟩ :: r₁) ∧
      Reads (block r₁) body (⟨.punct .semicolon, stop⟩ :: rest) ∧
      v = ⟨name, groups, none, body, start.merge stop⟩ := by
  rw [procedure]
  constructor
  · intro h
    obtain ⟨name, r, hname, _, hrest⟩ := reads_bind.mp h
    obtain ⟨groups, r₁, hgroups, _, hrest⟩ := reads_bind.mp hrest
    obtain ⟨semi, r₂, hsemi, _, hrest⟩ := reads_bind.mp hrest
    obtain ⟨body, r₃, hbody, _, hrest⟩ := reads_bind.mp hrest
    obtain ⟨stop, r₄, hstop, _, hrest⟩ := reads_bind.mp hrest
    obtain ⟨rfl, rfl⟩ := reads_ok.mp hrest
    cases reads_expect.mp hsemi
    cases reads_expect.mp hstop
    exact ⟨name, r, groups, semi, r₂, body, stop, reads_identifier.mp hname, hgroups,
      hbody, rfl⟩
  · rintro ⟨name, r, groups, semi, r₂, body, stop, hts, hgroups, hbody, rfl⟩
    refine (reads_identifier.mpr hts).bind fun _ => ?_
    refine hgroups.bind fun _ => ?_
    refine (reads_expect.mpr rfl).bind fun _ => ?_
    refine hbody.bind fun _ => ?_
    refine (reads_expect.mpr rfl).bind fun _ => ?_
    exact reads_ok.mpr ⟨rfl, rfl⟩

/-- A function is a name, parameters, a colon, a type, a semicolon, a block and a semicolon. -/
theorem reads_function {start : Span} {v : Routine} :
    Reads (function start ts) v rest ↔ ∃ name opening r groups colon ty span semi r₁ body stop,
      ts = ⟨.ident name.name, name.span⟩ :: ⟨.punct .lparen, opening⟩ :: r ∧
      Reads (params r) groups (⟨.punct .colon, colon⟩ :: ⟨.keyword (tyWord ty), span⟩ ::
        ⟨.punct .semicolon, semi⟩ :: r₁) ∧
      Reads (block r₁) body (⟨.punct .semicolon, stop⟩ :: rest) ∧
      v = ⟨name, groups, some ty, body, start.merge stop⟩ := by
  rw [function]
  constructor
  · intro h
    obtain ⟨name, r, hname, _, hrest⟩ := reads_bind.mp h
    obtain ⟨opening, r₁, hopen, _, hrest⟩ := reads_bind.mp hrest
    obtain ⟨groups, r₂, hgroups, _, hrest⟩ := reads_bind.mp hrest
    obtain ⟨colon, r₃, hcolon, _, hrest⟩ := reads_bind.mp hrest
    obtain ⟨⟨ty, span⟩, r₄, hty, _, hrest⟩ := reads_bind.mp hrest
    obtain ⟨semi, r₅, hsemi, _, hrest⟩ := reads_bind.mp hrest
    obtain ⟨body, r₆, hbody, _, hrest⟩ := reads_bind.mp hrest
    obtain ⟨stop, r₇, hstop, _, hrest⟩ := reads_bind.mp hrest
    obtain ⟨rfl, rfl⟩ := reads_ok.mp hrest
    cases reads_expect.mp hopen
    cases reads_expect.mp hcolon
    cases reads_typeName.mp hty
    cases reads_expect.mp hsemi
    cases reads_expect.mp hstop
    exact ⟨name, opening, r₁, groups, colon, ty, span, semi, r₅, body, stop,
      reads_identifier.mp hname, hgroups, hbody, rfl⟩
  · rintro ⟨name, opening, r₁, groups, colon, ty, span, semi, r₅, body, stop, hts, hgroups,
      hbody, rfl⟩
    refine (reads_identifier.mpr hts).bind fun _ => ?_
    refine (reads_expect.mpr rfl).bind fun _ => ?_
    refine hgroups.bind fun _ => ?_
    refine (reads_expect.mpr rfl).bind fun _ => ?_
    refine (reads_typeName.mpr rfl).bind fun _ => ?_
    refine (reads_expect.mpr rfl).bind fun _ => ?_
    refine hbody.bind fun _ => ?_
    refine (reads_expect.mpr rfl).bind fun _ => ?_
    exact reads_ok.mpr ⟨rfl, rfl⟩

/-- Routines go on as long as one of their two words follows. -/
theorem reads_routines {v : List Routine} :
    Reads (routines ts) v rest ↔
      (Stops (is (.keyword .procedure)) ts ∧ Stops (is (.keyword .function)) ts ∧ v = [] ∧
        rest = ts) ∨
      (∃ start r first r₁ more, ts = ⟨.keyword .procedure, start⟩ :: r ∧
        Reads (procedure start r) first r₁ ∧ Reads (routines r₁) more rest ∧ v = first :: more) ∨
      (∃ start r first r₁ more, ts = ⟨.keyword .function, start⟩ :: r ∧
        Reads (function start r) first r₁ ∧ Reads (routines r₁) more rest ∧ v = first :: more) := by
  rw [routines]
  constructor
  · intro h
    rcases accept_cases (.keyword .procedure) ts with ⟨hnone, hstop⟩ | ⟨start, r, rfl⟩
    · rcases accept_cases (.keyword .function) ts with ⟨hnone', hstop'⟩ | ⟨start, r, rfl⟩
      · simp only [hnone, hnone'] at h
        exact .inl ⟨hstop, hstop', reads_ok.mp h⟩
      · simp only [hnone, accept_cons, Parsed.behind] at h
        obtain ⟨first, r₁, hfirst, _, h⟩ := reads_bind.mp h
        obtain ⟨more, r₂, hmore, _, h⟩ := reads_bind.mp h
        obtain ⟨rfl, rfl⟩ := reads_ok.mp h
        exact .inr (.inr ⟨start, r, first, r₁, more, rfl, hfirst, hmore, rfl⟩)
    · simp only [accept_cons, Parsed.behind] at h
      obtain ⟨first, r₁, hfirst, _, h⟩ := reads_bind.mp h
      obtain ⟨more, r₂, hmore, _, h⟩ := reads_bind.mp h
      obtain ⟨rfl, rfl⟩ := reads_ok.mp h
      exact .inr (.inl ⟨start, r, first, r₁, more, rfl, hfirst, hmore, rfl⟩)
  · rintro (⟨hstop, hstop', rfl, rfl⟩ |
      ⟨start, r, first, r₁, more, rfl, hfirst, hmore, rfl⟩ |
      ⟨start, r, first, r₁, more, rfl, hfirst, hmore, rfl⟩)
    · simp only [accept_of_stops hstop, accept_of_stops hstop']
      exact reads_ok.mpr ⟨rfl, rfl⟩
    · simp only [accept_cons, Parsed.behind]
      refine hfirst.bind fun _ => ?_
      refine hmore.bind fun _ => ?_
      exact reads_ok.mpr ⟨rfl, rfl⟩
    · have hno : accept (.keyword .procedure) (⟨.keyword .function, start⟩ :: r) = none := rfl
      simp only [hno, accept_cons, Parsed.behind]
      refine hfirst.bind fun _ => ?_
      refine hmore.bind fun _ => ?_
      exact reads_ok.mpr ⟨rfl, rfl⟩

/-- A program is its variables, its routines, a block and a dot; whatever stands behind the dot is left.
    -/
theorem reads_program {tree : Program} :
    Reads (program ts) tree rest ↔ ∃ vars r subs r₁ main stop,
      Reads (varSections ts) vars r ∧ Reads (routines r) subs r₁ ∧
      Reads (block r₁) main (⟨.punct .dot, stop⟩ :: rest) ∧
      tree = ⟨vars.map .vars ++ subs.map .routine, main, (startOf ts).merge stop⟩ := by
  rw [program]
  constructor
  · intro h
    obtain ⟨vars, r, hvars, _, hrest⟩ := reads_bind.mp h
    obtain ⟨subs, r₁, hsubs, _, hrest⟩ := reads_bind.mp hrest
    obtain ⟨main, r₂, hmain, _, hrest⟩ := reads_bind.mp hrest
    obtain ⟨stop, r₃, hdot, _, hrest⟩ := reads_bind.mp hrest
    obtain ⟨rfl, rfl⟩ := reads_ok.mp hrest
    cases reads_expect.mp hdot
    exact ⟨vars, r, subs, r₁, main, stop, hvars, hsubs, hmain, rfl⟩
  · rintro ⟨vars, r, subs, r₁, main, stop, hvars, hsubs, hmain, rfl⟩
    refine hvars.bind fun _ => ?_
    refine hsubs.bind fun _ => ?_
    refine hmain.bind fun _ => ?_
    refine (reads_expect.mpr rfl).bind fun _ => ?_
    exact reads_ok.mpr ⟨rfl, rfl⟩

end Routines

end Parser

namespace Grammar

open TinyPascal.Parser

/-! ## Variables and parameters -/

/-- A line of variables. -/
abbrev varLineRhs : Rhs := .seq [.nt .varList, .mark .colon, .nt .type, .mark .semicolon]

/-- A `var` with its lines. -/
abbrev varSectionRhs : Rhs := .seq [.kw .var, .plus varLineRhs]

/-- Parameters behind the opening parenthesis. -/
abbrev paramsTail : Rhs := .seq [.opt (.nt .paramList), .mark .rparen]

section Forms

variable {ts rest : List Token}

/-- A type is one of its two words. -/
theorem spells_type :
    Spells (.nt .type) ts ↔ ∃ ty span, ts = [⟨.keyword (tyWord ty), span⟩] := by
  rw [spells_nt, rule, spells_alt]
  constructor
  · rintro ⟨r, hr, h⟩
    simp only [List.mem_cons, List.not_mem_nil, or_false] at hr
    rcases hr with rfl | rfl
    · obtain ⟨span, rfl⟩ := spells_kw.mp h
      exact ⟨.integer, span, rfl⟩
    · obtain ⟨span, rfl⟩ := spells_kw.mp h
      exact ⟨.boolean, span, rfl⟩
  · rintro ⟨ty, span, rfl⟩
    cases ty with
    | integer => exact ⟨.kw .integer, by simp, spells_kw.mpr ⟨span, rfl⟩⟩
    | boolean => exact ⟨.kw .boolean, by simp, spells_kw.mpr ⟨span, rfl⟩⟩

/-- A line of variables in the grammar. -/
theorem spells_varLine :
    Spells varLineRhs ts ↔ ∃ u colon ty span stop, Spells (.nt .varList) u ∧
      ts = u ++ [⟨.punct .colon, colon⟩, ⟨.keyword (tyWord ty), span⟩, ⟨.punct .semicolon, stop⟩] := by
  constructor
  · intro h
    obtain ⟨u, v, rfl, hu, hv⟩ := spells_seq_cons.mp h
    obtain ⟨⟨_, colon⟩, v₁, rfl, rfl, hv₁⟩ := spells_tok_cons.mp hv
    obtain ⟨a, v₂, rfl, ha, hv₂⟩ := spells_seq_cons.mp hv₁
    obtain ⟨ty, span, rfl⟩ := spells_type.mp ha
    obtain ⟨stop, rfl⟩ := spells_mark.mp (spells_last.mp hv₂)
    exact ⟨u, colon, ty, span, stop, hu, rfl⟩
  · rintro ⟨u, colon, ty, span, stop, hu, rfl⟩
    refine spells_seq_cons.mpr ⟨u, _, rfl, hu, spells_tok_cons.mpr ⟨_, _, rfl, rfl, ?_⟩⟩
    refine spells_seq_cons.mpr ⟨[_], _, rfl, spells_type.mpr ⟨ty, span, rfl⟩, ?_⟩
    exact spells_last.mpr (spells_mark.mpr ⟨stop, rfl⟩)

/-- A group of parameters in the grammar. -/
theorem spells_param :
    Spells (.nt .param) ts ↔ ∃ u colon ty stop, Spells (.nt .varList) u ∧
      ts = u ++ [⟨.punct .colon, colon⟩, ⟨.keyword (tyWord ty), stop⟩] := by
  rw [spells_nt]
  constructor
  · intro h
    obtain ⟨u, v, rfl, hu, hv⟩ := spells_seq_cons.mp h
    obtain ⟨⟨_, colon⟩, v₁, rfl, rfl, hv₁⟩ := spells_tok_cons.mp hv
    obtain ⟨ty, stop, rfl⟩ := spells_type.mp (spells_last.mp hv₁)
    exact ⟨u, colon, ty, stop, hu, rfl⟩
  · rintro ⟨u, colon, ty, stop, hu, rfl⟩
    refine spells_seq_cons.mpr ⟨u, _, rfl, hu, spells_tok_cons.mpr ⟨_, _, rfl, rfl, ?_⟩⟩
    exact spells_last.mpr (spells_type.mpr ⟨ty, stop, rfl⟩)

/-- Names start with a name. -/
theorem starts_of_varList (h : Spells (.nt .varList) ts) :
    ∃ x span r, ts = ⟨.ident x, span⟩ :: r := by
  obtain ⟨u, v, rfl, hu, _⟩ := spells_sepBy.mp (spells_nt.mp h)
  obtain ⟨x, span, rfl⟩ := spells_ident.mp hu
  exact ⟨x, span, v, rfl⟩

theorem starts_of_varLine (h : Spells varLineRhs ts) : ∃ x span r, ts = ⟨.ident x, span⟩ :: r := by
  obtain ⟨u, _, _, _, _, hu, rfl⟩ := spells_varLine.mp h
  obtain ⟨x, span, r, rfl⟩ := starts_of_varList hu
  exact ⟨x, span, _, rfl⟩

/-- The place of tokens does not depend on what follows them. -/
theorem startOf_append (h : ts ≠ []) : startOf (ts ++ rest) = startOf ts := by
  cases ts with
  | nil => exact absurd rfl h
  | cons t r => rfl

theorem ne_nil_of_varList (h : Spells (.nt .varList) ts) : ts ≠ [] := by
  obtain ⟨x, span, r, rfl⟩ := starts_of_varList h
  exact List.cons_ne_nil _ _

end Forms

section Variables

variable {n : Nat}

theorem sound_names (n : Nat) : Sound n names (.nt .varList) := by
  have hitem : Sound n identifier (.tok .ident) := by
    intro ts v rest _ h
    exact ⟨[_], reads_identifier.mp h, spells_ident.mpr ⟨v.name, v.span, rfl⟩⟩
  exact .nt (sound_separated separated_names hitem)

theorem complete_names (n : Nat) : Complete n names (.nt .varList) (is (.punct .comma)) := by
  have hitem : Complete n identifier (.tok .ident) (fun _ => false) := by
    intro pre _ h
    obtain ⟨x, span, rfl⟩ := spells_ident.mp h
    exact ⟨⟨x, span⟩, fun rest _ => reads_identifier.mpr rfl⟩
  exact .nt (complete_separated separated_names hitem rfl)

theorem sound_varLine (n : Nat) : Sound n varLine varLineRhs := by
  intro ts v rest hle h
  obtain ⟨declared, colon, ty, span, stop, hnames, _⟩ := reads_varLine.mp h
  obtain ⟨u, rfl, hu⟩ := sound_names n hle hnames
  exact ⟨_, by simp, spells_varLine.mpr ⟨u, colon, ty, span, stop, hu, rfl⟩⟩

theorem complete_varLine (n : Nat) : Complete n varLine varLineRhs (fun _ => false) := by
  intro pre hle h
  obtain ⟨u, colon, ty, span, stop, hu, rfl⟩ := spells_varLine.mp h
  rw [List.length_append] at hle
  obtain ⟨declared, hnames⟩ := complete_names n (by omega) hu
  refine ⟨⟨declared, ty, (startOf u).merge stop⟩, fun rest _ => ?_⟩
  rw [List.append_assoc]
  refine reads_varLine.mpr ⟨declared, colon, ty, span, stop, hnames _ (stops_cons.mpr rfl), ?_⟩
  rw [startOf_append (ne_nil_of_varList hu)]

theorem sound_varLines (n : Nat) : Sound n varLines (.plus varLineRhs) := by
  intro ts v rest hle h
  obtain ⟨k, hlen⟩ : ∃ k, ts.length = k := ⟨_, rfl⟩
  induction k using Nat.strongRecOn generalizing ts v with
  | ind k ih =>
      obtain ⟨first, r, hfirst, hrest⟩ := reads_varLines.mp h
      have hshort := hfirst.shorter
      obtain ⟨u, rfl, hu⟩ := sound_varLine n hle hfirst
      rcases hrest with ⟨_, _, rfl⟩ | ⟨_, more, hmore, _⟩
      · exact ⟨u, rfl, spells_plus.mpr ⟨u, [], by simp, hu, .inl rfl⟩⟩
      · obtain ⟨w, rfl, hw⟩ := ih r.length (by omega) (by omega) hmore rfl
        exact ⟨u ++ w, by simp, spells_plus.mpr ⟨u, w, rfl, hu, .inr hw⟩⟩

/-- A name behind a line starts another one. -/
theorem complete_varLines (n : Nat) : Complete n varLines (.plus varLineRhs) isName := by
  intro pre hle h
  obtain ⟨k, hlen⟩ : ∃ k, pre.length = k := ⟨_, rfl⟩
  induction k using Nat.strongRecOn generalizing pre with
  | ind k ih =>
      obtain ⟨u, v, rfl, hu, hv⟩ := spells_plus.mp h
      obtain ⟨x, span, u', rfl⟩ := starts_of_varLine hu
      rw [List.length_append, List.length_cons] at hle hlen
      obtain ⟨first, hfirst⟩ := complete_varLine n (by rw [List.length_cons]; omega) hu
      rcases hv with rfl | hv
      · refine ⟨[first], fun rest hrest => ?_⟩
        rw [List.append_nil]
        exact reads_varLines.mpr ⟨first, rest, hfirst rest (fun _ _ => rfl), .inl ⟨hrest, rfl, rfl⟩⟩
      · obtain ⟨more, hmore⟩ := ih v.length (by omega) (by omega) hv rfl
        refine ⟨first :: more, fun rest hrest => ?_⟩
        rw [List.append_assoc]
        refine reads_varLines.mpr ⟨first, v ++ rest, hfirst _ (fun _ _ => rfl), .inr
          ⟨?_, more, hmore rest hrest, rfl⟩⟩
        -- the next line starts with a name
        obtain ⟨w, _, rfl, hw, _⟩ := spells_plus.mp hv
        obtain ⟨_, _, _, rfl⟩ := starts_of_varLine hw
        rfl

/-- Whatever is read as sections of variables is a repetition of such sections. -/
theorem sound_varSections (n : Nat) : Sound n varSections (.star varSectionRhs) := by
  intro ts v rest hle h
  obtain ⟨k, hlen⟩ : ∃ k, ts.length = k := ⟨_, rfl⟩
  induction k using Nat.strongRecOn generalizing ts v with
  | ind k ih =>
      rcases reads_varSections.mp h with ⟨_, _, rfl⟩ |
        ⟨span, r, first, r₁, more, rfl, hfirst, hmore, _⟩
      · exact ⟨[], rfl, spells_star.mpr (.inl rfl)⟩
      · have hshort := hfirst.shorter
        rw [List.length_cons] at hle hlen
        obtain ⟨u, rfl, hu⟩ := sound_varLines n (by omega) hfirst
        obtain ⟨w, rfl, hw⟩ := ih r₁.length (by omega) (by omega) hmore rfl
        refine ⟨⟨.keyword .var, span⟩ :: u ++ w, by simp, spells_star.mpr (.inr ⟨_, w, rfl, ?_, hw⟩)⟩
        exact spells_tok_cons.mpr ⟨_, u, rfl, rfl, spells_last.mpr hu⟩

/-- Sections of variables are read to the end unless a name or another `var` goes on with them. -/
theorem complete_varSections (n : Nat) :
    Complete n varSections (.star varSectionRhs) (fun k => isName k || is (.keyword .var) k) := by
  intro pre hle h
  obtain ⟨k, hlen⟩ : ∃ k, pre.length = k := ⟨_, rfl⟩
  induction k using Nat.strongRecOn generalizing pre with
  | ind k ih =>
      rcases spells_star.mp h with rfl | ⟨u, w, rfl, hu, hw⟩
      · refine ⟨[], fun rest hrest => reads_varSections.mpr (.inl ⟨?_, rfl, rfl⟩)⟩
        exact hrest.mono (fun k hk => by simp [hk])
      · obtain ⟨⟨_, span⟩, v, rfl, rfl, hv⟩ := spells_tok_cons.mp hu
        rw [List.length_append, List.length_cons] at hle hlen
        obtain ⟨first, hfirst⟩ := complete_varLines n (by omega) (spells_last.mp hv)
        obtain ⟨more, hmore⟩ := ih w.length (by omega) (by omega) hw rfl
        refine ⟨first ++ more, fun rest hrest => ?_⟩
        -- behind the lines stands the next `var`, or what follows the variables
        have hstop : Stops isName (w ++ rest) := by
          rcases spells_star.mp hw with rfl | ⟨a, _, rfl, ha, _⟩
          · exact hrest.mono (fun k hk => by simp [hk])
          · obtain ⟨⟨_, _⟩, _, rfl, rfl, _⟩ := spells_tok_cons.mp ha
            exact stops_cons.mpr rfl
        rw [List.append_assoc]
        exact reads_varSections.mpr (.inr ⟨span, v ++ (w ++ rest), first, w ++ rest, more, rfl,
          hfirst _ hstop, hmore rest hrest, rfl⟩)

theorem sound_param (n : Nat) : Sound n param (.nt .param) := by
  intro ts v rest hle h
  obtain ⟨declared, colon, ty, stop, hnames, _⟩ := reads_param.mp h
  obtain ⟨u, rfl, hu⟩ := sound_names n hle hnames
  exact ⟨_, by simp, spells_param.mpr ⟨u, colon, ty, stop, hu, rfl⟩⟩

theorem complete_param (n : Nat) : Complete n param (.nt .param) (fun _ => false) := by
  intro pre hle h
  obtain ⟨u, colon, ty, stop, hu, rfl⟩ := spells_param.mp h
  rw [List.length_append] at hle
  obtain ⟨declared, hnames⟩ := complete_names n (by omega) hu
  refine ⟨⟨declared, ty, (startOf u).merge stop⟩, fun rest _ => ?_⟩
  rw [List.append_assoc]
  refine reads_param.mpr ⟨declared, colon, ty, stop, hnames _ (stops_cons.mpr rfl), ?_⟩
  rw [startOf_append (ne_nil_of_varList hu)]

theorem sound_params (n : Nat) : Sound n params paramsTail := by
  intro ts v rest hle h
  rcases reads_params.mp h with ⟨span, rfl, _⟩ | ⟨_, span, hgroups⟩
  · refine ⟨[⟨.punct .rparen, span⟩], rfl, spells_seq_cons.mpr ⟨[], _, rfl, ?_, ?_⟩⟩
    · exact spells_opt.mpr (.inl rfl)
    · exact spells_last.mpr (spells_mark.mpr ⟨span, rfl⟩)
  · obtain ⟨u, rfl, hu⟩ := sound_separated separated_paramGroups (sound_param n) hle hgroups
    refine ⟨u ++ [⟨.punct .rparen, span⟩], by simp, spells_seq_cons.mpr ⟨u, _, rfl, ?_, ?_⟩⟩
    · exact spells_opt.mpr (.inr (spells_nt.mpr hu))
    · exact spells_last.mpr (spells_mark.mpr ⟨span, rfl⟩)

/-- Parameters end with their parenthesis, whatever follows. -/
theorem complete_params (n : Nat) : Complete n params paramsTail (fun _ => false) := by
  intro pre hle h
  obtain ⟨u, w, rfl, hu, hw⟩ := spells_seq_cons.mp h
  obtain ⟨span, rfl⟩ := spells_mark.mp (spells_last.mp hw)
  rw [List.length_append] at hle
  rcases spells_opt.mp hu with rfl | hlist
  · exact ⟨[], fun rest _ => reads_params.mpr (.inl ⟨span, rfl, rfl⟩)⟩
  · obtain ⟨groups, hgroups⟩ := complete_separated separated_paramGroups (complete_param n) rfl
      (by omega) (spells_nt.mp hlist)
    refine ⟨groups, fun rest _ => ?_⟩
    rw [List.append_assoc]
    refine reads_params.mpr (.inr ⟨?_, span, hgroups _ (stops_cons.mpr rfl)⟩)
    -- parameters start with a name
    obtain ⟨a, _, rfl, ha, _⟩ := spells_sepBy.mp (spells_nt.mp hlist)
    obtain ⟨b, _, _, _, hb, rfl⟩ := spells_param.mp ha
    obtain ⟨x, _, _, rfl⟩ := starts_of_varList hb
    exact stops_cons.mpr rfl

end Variables

/-! ## Routines -/

/-- The parameters of a procedure, with their parentheses. -/
abbrev procParamsRhs : Rhs := .opt (.seq [.mark .lparen, .opt (.nt .paramList), .mark .rparen])

/-- A procedure behind its keyword. -/
abbrev procTail : Rhs :=
  .seq [.tok .ident, procParamsRhs, .mark .semicolon, .nt .block, .mark .semicolon]

/-- A function behind its keyword. -/
abbrev funcTail : Rhs :=
  .seq [.tok .ident, .mark .lparen, .opt (.nt .paramList), .mark .rparen, .mark .colon, .nt .type,
    .mark .semicolon, .nt .block, .mark .semicolon]

/-- A procedure or a function. -/
abbrev routineRhs : Rhs := .alt [.nt .procDecl, .nt .funcDecl]

section RoutineForms

variable {ts : List Token}

/-- What the grammar has behind the word `procedure`. -/
theorem spells_procTail :
    Spells procTail ts ↔ ∃ x span u semi w stop, Spells procParamsRhs u ∧ Spells (.nt .block) w ∧
      ts = ⟨.ident x, span⟩ :: (u ++ ⟨.punct .semicolon, semi⟩ ::
        (w ++ [⟨.punct .semicolon, stop⟩])) := by
  constructor
  · intro h
    obtain ⟨⟨_, span⟩, v, rfl, ⟨x, rfl⟩, hv⟩ := spells_tok_cons.mp h
    obtain ⟨u, v₁, rfl, hu, hv₁⟩ := spells_seq_cons.mp hv
    obtain ⟨⟨_, semi⟩, v₂, rfl, rfl, hv₂⟩ := spells_tok_cons.mp hv₁
    obtain ⟨w, v₃, rfl, hw, hv₃⟩ := spells_seq_cons.mp hv₂
    obtain ⟨stop, rfl⟩ := spells_mark.mp (spells_last.mp hv₃)
    exact ⟨x, span, u, semi, w, stop, hu, hw, rfl⟩
  · rintro ⟨x, span, u, semi, w, stop, hu, hw, rfl⟩
    refine spells_tok_cons.mpr ⟨_, _, rfl, ⟨x, rfl⟩, spells_seq_cons.mpr ⟨u, _, rfl, hu, ?_⟩⟩
    refine spells_tok_cons.mpr ⟨_, _, rfl, rfl, spells_seq_cons.mpr ⟨w, _, rfl, hw, ?_⟩⟩
    exact spells_last.mpr (spells_mark.mpr ⟨stop, rfl⟩)

/-- What the grammar has behind the word `function`. -/
theorem spells_funcTail :
    Spells funcTail ts ↔ ∃ x span opening u colon ty place semi w stop,
      Spells paramsTail u ∧ Spells (.nt .block) w ∧
      ts = ⟨.ident x, span⟩ :: ⟨.punct .lparen, opening⟩ :: (u ++ ⟨.punct .colon, colon⟩ ::
        ⟨.keyword (tyWord ty), place⟩ :: ⟨.punct .semicolon, semi⟩ ::
          (w ++ [⟨.punct .semicolon, stop⟩])) := by
  constructor
  · intro h
    obtain ⟨⟨_, span⟩, v, rfl, ⟨x, rfl⟩, hv⟩ := spells_tok_cons.mp h
    obtain ⟨⟨_, opening⟩, v₁, rfl, rfl, hv₁⟩ := spells_tok_cons.mp hv
    obtain ⟨u, v₂, rfl, hu, hv₂⟩ := spells_seq_cons.mp hv₁
    obtain ⟨⟨_, closing⟩, v₃, rfl, rfl, hv₃⟩ := spells_tok_cons.mp hv₂
    obtain ⟨⟨_, colon⟩, v₄, rfl, rfl, hv₄⟩ := spells_tok_cons.mp hv₃
    obtain ⟨a, v₅, rfl, ha, hv₅⟩ := spells_seq_cons.mp hv₄
    obtain ⟨ty, place, rfl⟩ := spells_type.mp ha
    obtain ⟨⟨_, semi⟩, v₆, rfl, rfl, hv₆⟩ := spells_tok_cons.mp hv₅
    obtain ⟨w, v₇, rfl, hw, hv₇⟩ := spells_seq_cons.mp hv₆
    obtain ⟨stop, rfl⟩ := spells_mark.mp (spells_last.mp hv₇)
    have hparams : Spells paramsTail (u ++ [⟨.punct .rparen, closing⟩]) :=
      spells_seq_cons.mpr ⟨u, _, rfl, hu, spells_last.mpr (spells_mark.mpr ⟨closing, rfl⟩)⟩
    exact ⟨x, span, opening, _, colon, ty, place, semi, w, stop, hparams, hw, by simp⟩
  · rintro ⟨x, span, opening, u, colon, ty, place, semi, w, stop, hu, hw, rfl⟩
    obtain ⟨u', c, rfl, hu', hc⟩ := spells_seq_cons.mp hu
    obtain ⟨closing, rfl⟩ := spells_mark.mp (spells_last.mp hc)
    refine spells_tok_cons.mpr ⟨_, _, rfl, ⟨x, rfl⟩, spells_tok_cons.mpr ⟨_, _, rfl, rfl, ?_⟩⟩
    rw [List.append_assoc]
    refine spells_seq_cons.mpr ⟨u', _, rfl, hu', spells_tok_cons.mpr ⟨_, _, rfl, rfl, ?_⟩⟩
    refine spells_tok_cons.mpr ⟨_, _, rfl, rfl, spells_seq_cons.mpr ⟨[_], _, rfl, ?_, ?_⟩⟩
    · exact spells_type.mpr ⟨ty, place, rfl⟩
    · refine spells_tok_cons.mpr ⟨_, _, rfl, rfl, spells_seq_cons.mpr ⟨w, _, rfl, hw, ?_⟩⟩
      exact spells_last.mpr (spells_mark.mpr ⟨stop, rfl⟩)

/-- A routine is a procedure or a function behind its keyword. -/
theorem spells_routine :
    Spells routineRhs ts ↔
      (∃ start u, ts = ⟨.keyword .procedure, start⟩ :: u ∧ Spells procTail u) ∨
      (∃ start u, ts = ⟨.keyword .function, start⟩ :: u ∧ Spells funcTail u) := by
  rw [spells_alt]
  constructor
  · rintro ⟨r, hr, h⟩
    simp only [List.mem_cons, List.not_mem_nil, or_false] at hr
    rcases hr with rfl | rfl
    · obtain ⟨⟨_, start⟩, u, rfl, rfl, hu⟩ := spells_tok_cons.mp (spells_nt.mp h)
      exact .inl ⟨start, u, rfl, hu⟩
    · obtain ⟨⟨_, start⟩, u, rfl, rfl, hu⟩ := spells_tok_cons.mp (spells_nt.mp h)
      exact .inr ⟨start, u, rfl, hu⟩
  · rintro (⟨start, u, rfl, hu⟩ | ⟨start, u, rfl, hu⟩)
    · exact ⟨.nt .procDecl, by simp, spells_nt.mpr (spells_tok_cons.mpr ⟨_, u, rfl, rfl, hu⟩)⟩
    · exact ⟨.nt .funcDecl, by simp, spells_nt.mpr (spells_tok_cons.mpr ⟨_, u, rfl, rfl, hu⟩)⟩

end RoutineForms

section Routines

variable {n : Nat}

theorem sound_procedureParams (n : Nat) : Sound n procedureParams procParamsRhs := by
  intro ts v rest hle h
  rcases reads_procedureParams.mp h with ⟨_, _, rfl⟩ | ⟨span, r, rfl, hgroups⟩
  · exact ⟨[], rfl, spells_opt.mpr (.inl rfl)⟩
  · rw [List.length_cons] at hle
    obtain ⟨u, rfl, hu⟩ := sound_params n (by omega) hgroups
    refine ⟨⟨.punct .lparen, span⟩ :: u, rfl, spells_opt.mpr (.inr ?_)⟩
    exact spells_tok_cons.mpr ⟨_, u, rfl, rfl, hu⟩

/-- A procedure without parameters is read as such unless a parenthesis follows. -/
theorem complete_procedureParams (n : Nat) :
    Complete n procedureParams procParamsRhs (is (.punct .lparen)) := by
  intro pre hle h
  rcases spells_opt.mp h with rfl | h
  · exact ⟨[], fun rest hrest => reads_procedureParams.mpr (.inl ⟨hrest, rfl, rfl⟩)⟩
  · obtain ⟨⟨_, span⟩, u, rfl, rfl, hu⟩ := spells_tok_cons.mp h
    rw [List.length_cons] at hle
    obtain ⟨groups, hgroups⟩ := complete_params n (by omega) hu
    refine ⟨groups, fun rest _ => reads_procedureParams.mpr (.inr ⟨span, u ++ rest, rfl, ?_⟩)⟩
    exact hgroups rest (fun _ _ => rfl)

theorem sound_procedure (n : Nat) (start : Span) : Sound n (procedure start) procTail := by
  intro ts v rest hle h
  obtain ⟨name, r, groups, semi, r₁, body, stop, rfl, hgroups, hbody, _⟩ := reads_procedure.mp h
  obtain ⟨u, rfl, hu⟩ := sound_procedureParams _ (Nat.le_refl _) hgroups
  obtain ⟨w, rfl, hw⟩ := sound_block _ (Nat.le_refl _) hbody
  exact ⟨_, by simp, spells_procTail.mpr ⟨name.name, name.span, u, semi, w, stop, hu, hw, rfl⟩⟩

/-- A procedure is read up to its last semicolon, whatever follows. -/
theorem complete_procedure (n : Nat) (start : Span) :
    Complete n (procedure start) procTail (fun _ => false) := by
  intro pre hle h
  obtain ⟨x, span, u, semi, w, stop, hu, hw, rfl⟩ := spells_procTail.mp h
  obtain ⟨groups, hgroups⟩ := complete_procedureParams _ (Nat.le_refl _) hu
  obtain ⟨body, hbody⟩ := complete_block _ (Nat.le_refl _) hw
  refine ⟨⟨⟨x, span⟩, groups, none, body, start.merge stop⟩, fun rest _ => ?_⟩
  refine reads_procedure.mpr ⟨⟨x, span⟩, _, groups, semi, _, body, stop, by simp,
    hgroups _ (stops_cons.mpr rfl), hbody _ (fun _ _ => rfl), rfl⟩

theorem sound_function (n : Nat) (start : Span) : Sound n (function start) funcTail := by
  intro ts v rest hle h
  obtain ⟨name, opening, r, groups, colon, ty, place, semi, r₁, body, stop, rfl, hgroups, hbody, _⟩ :=
    reads_function.mp h
  obtain ⟨u, rfl, hu⟩ := sound_params _ (Nat.le_refl _) hgroups
  obtain ⟨w, rfl, hw⟩ := sound_block _ (Nat.le_refl _) hbody
  exact ⟨_, by simp, spells_funcTail.mpr
    ⟨name.name, name.span, opening, u, colon, ty, place, semi, w, stop, hu, hw, rfl⟩⟩

theorem complete_function (n : Nat) (start : Span) :
    Complete n (function start) funcTail (fun _ => false) := by
  intro pre hle h
  obtain ⟨x, span, opening, u, colon, ty, place, semi, w, stop, hu, hw, rfl⟩ := spells_funcTail.mp h
  obtain ⟨groups, hgroups⟩ := complete_params _ (Nat.le_refl _) hu
  obtain ⟨body, hbody⟩ := complete_block _ (Nat.le_refl _) hw
  refine ⟨⟨⟨x, span⟩, groups, some ty, body, start.merge stop⟩, fun rest _ => ?_⟩
  refine reads_function.mpr ⟨⟨x, span⟩, opening, _, groups, colon, ty, place, semi, _, body, stop,
    by simp, hgroups _ (fun _ _ => rfl), hbody _ (fun _ _ => rfl), rfl⟩

/-- Whatever is read as routines is a repetition of routines. -/
theorem sound_routines (n : Nat) : Sound n routines (.star routineRhs) := by
  intro ts v rest hle h
  obtain ⟨k, hlen⟩ : ∃ k, ts.length = k := ⟨_, rfl⟩
  induction k using Nat.strongRecOn generalizing ts v with
  | ind k ih =>
      rcases reads_routines.mp h with ⟨_, _, _, rfl⟩ |
        ⟨start, r, first, r₁, more, rfl, hfirst, hmore, _⟩ |
        ⟨start, r, first, r₁, more, rfl, hfirst, hmore, _⟩
      · exact ⟨[], rfl, spells_star.mpr (.inl rfl)⟩
      · have hshort := hfirst.shorter
        rw [List.length_cons] at hle hlen
        obtain ⟨u, rfl, hu⟩ := sound_procedure n start (by omega) hfirst
        obtain ⟨w, rfl, hw⟩ := ih r₁.length (by omega) (by omega) hmore rfl
        refine ⟨⟨.keyword .procedure, start⟩ :: u ++ w, by simp,
          spells_star.mpr (.inr ⟨_, w, rfl, ?_, hw⟩)⟩
        exact spells_routine.mpr (.inl ⟨start, u, rfl, hu⟩)
      · have hshort := hfirst.shorter
        rw [List.length_cons] at hle hlen
        obtain ⟨u, rfl, hu⟩ := sound_function n start (by omega) hfirst
        obtain ⟨w, rfl, hw⟩ := ih r₁.length (by omega) (by omega) hmore rfl
        refine ⟨⟨.keyword .function, start⟩ :: u ++ w, by simp,
          spells_star.mpr (.inr ⟨_, w, rfl, ?_, hw⟩)⟩
        exact spells_routine.mpr (.inr ⟨start, u, rfl, hu⟩)

/-- The tokens that start a routine. -/
abbrev startsRoutine : Token.Kind → Bool :=
  fun k => is (.keyword .procedure) k || is (.keyword .function) k

/-- Routines are read to the end unless another one goes on with them. -/
theorem complete_routines (n : Nat) : Complete n routines (.star routineRhs) startsRoutine := by
  intro pre hle h
  obtain ⟨k, hlen⟩ : ∃ k, pre.length = k := ⟨_, rfl⟩
  induction k using Nat.strongRecOn generalizing pre with
  | ind k ih =>
      rcases spells_star.mp h with rfl | ⟨u, w, rfl, hu, hw⟩
      · refine ⟨[], fun rest hrest => reads_routines.mpr (.inl ⟨?_, ?_, rfl, rfl⟩)⟩
        · exact hrest.mono (fun k hk => by simp only [startsRoutine, hk, Bool.true_or])
        · exact hrest.mono (fun k hk => by simp only [startsRoutine, hk, Bool.or_true])
      · rw [List.length_append] at hle hlen
        -- a routine ends with its semicolon, so what follows it does not matter
        rcases spells_routine.mp hu with ⟨start, v, rfl, hv⟩ | ⟨start, v, rfl, hv⟩
        · rw [List.length_cons] at hle hlen
          obtain ⟨first, hfirst⟩ := complete_procedure n start (by omega) hv
          obtain ⟨more, hmore⟩ := ih w.length (by omega) (by omega) hw rfl
          refine ⟨first :: more, fun rest hrest => ?_⟩
          rw [List.append_assoc]
          exact reads_routines.mpr (.inr (.inl ⟨start, v ++ (w ++ rest), first, w ++ rest, more, rfl,
            hfirst _ (fun _ _ => rfl), hmore rest hrest, rfl⟩))
        · rw [List.length_cons] at hle hlen
          obtain ⟨first, hfirst⟩ := complete_function n start (by omega) hv
          obtain ⟨more, hmore⟩ := ih w.length (by omega) (by omega) hw rfl
          refine ⟨first :: more, fun rest hrest => ?_⟩
          rw [List.append_assoc]
          exact reads_routines.mpr (.inr (.inr ⟨start, v ++ (w ++ rest), first, w ++ rest, more, rfl,
            hfirst _ (fun _ _ => rfl), hmore rest hrest, rfl⟩))

end Routines

/-! ## Programs -/

section Programs

/-- A program in the grammar: variables, routines, a block and a dot. -/
theorem spells_program {ts : List Token} :
    Spells (.nt .program) ts ↔ ∃ u v w stop, Spells (.star varSectionRhs) u ∧
      Spells (.star routineRhs) v ∧ Spells (.nt .block) w ∧
      ts = u ++ (v ++ (w ++ [⟨.punct .dot, stop⟩])) := by
  rw [spells_nt]
  constructor
  · intro h
    obtain ⟨d, r, rfl, hd, hr⟩ := spells_seq_cons.mp h
    obtain ⟨u, v, rfl, hu, hv⟩ := spells_seq_cons.mp (spells_nt.mp hd)
    obtain ⟨w, r₁, rfl, hw, hr₁⟩ := spells_seq_cons.mp hr
    obtain ⟨stop, rfl⟩ := spells_mark.mp (spells_last.mp hr₁)
    exact ⟨u, v, w, stop, hu, spells_last.mp hv, hw, by simp⟩
  · rintro ⟨u, v, w, stop, hu, hv, hw, rfl⟩
    refine spells_seq_cons.mpr ⟨u ++ v, w ++ [⟨.punct .dot, stop⟩], by simp, ?_, ?_⟩
    · exact spells_nt.mpr (spells_seq_cons.mpr ⟨u, v, rfl, hu, spells_last.mpr hv⟩)
    · refine spells_seq_cons.mpr ⟨w, _, rfl, hw, spells_last.mpr ?_⟩
      exact spells_mark.mpr ⟨stop, rfl⟩

/-- A block starts with a `begin`. -/
theorem starts_of_block {ts : List Token} (h : Spells (.nt .block) ts) :
    ∃ start r, ts = ⟨.keyword .begin, start⟩ :: r := by
  obtain ⟨⟨_, start⟩, r, rfl, rfl, _⟩ := spells_tok_cons.mp (spells_nt.mp h)
  exact ⟨start, r, rfl⟩

/-- What follows the variables of a program is a routine or the main block. -/
theorem stops_of_routines {v w rest : List Token} (hv : Spells (.star routineRhs) v)
    (hw : Spells (.nt .block) w) :
    Stops (fun k => isName k || is (.keyword .var) k) (v ++ (w ++ rest)) := by
  rcases spells_star.mp hv with rfl | ⟨a, _, rfl, ha, _⟩
  · obtain ⟨start, r, rfl⟩ := starts_of_block hw
    exact stops_cons.mpr rfl
  · rcases spells_routine.mp ha with ⟨start, r, rfl, _⟩ | ⟨start, r, rfl, _⟩
    · exact stops_cons.mpr rfl
    · exact stops_cons.mpr rfl

theorem sound_program (n : Nat) : Sound n program (.nt .program) := by
  intro ts tree rest hle h
  obtain ⟨vars, r, subs, r₁, main, stop, hvars, hsubs, hmain, _⟩ := reads_program.mp h
  obtain ⟨u, rfl, hu⟩ := sound_varSections n hle hvars
  obtain ⟨v, rfl, hv⟩ := sound_routines _ (Nat.le_refl _) hsubs
  obtain ⟨w, rfl, hw⟩ := sound_block _ (Nat.le_refl _) hmain
  exact ⟨_, by simp, spells_program.mpr ⟨u, v, w, stop, hu, hv, hw, rfl⟩⟩

/-- **A program is read completely**, and whatever follows its dot has no part in it. -/
theorem complete_program (n : Nat) : Complete n program (.nt .program) (fun _ => false) := by
  intro pre _ h
  obtain ⟨u, v, w, stop, hu, hv, hw, hpre⟩ := spells_program.mp h
  obtain ⟨vars, hvars⟩ := complete_varSections _ (Nat.le_refl _) hu
  obtain ⟨subs, hsubs⟩ := complete_routines _ (Nat.le_refl _) hv
  obtain ⟨main, hmain⟩ := complete_block _ (Nat.le_refl _) hw
  have hne : pre ≠ [] := by simp [hpre]
  refine ⟨⟨vars.map .vars ++ subs.map .routine, main, (startOf pre).merge stop⟩, fun rest _ => ?_⟩
  refine reads_program.mpr ⟨vars, v ++ (w ++ ⟨.punct .dot, stop⟩ :: rest), subs,
    w ++ ⟨.punct .dot, stop⟩ :: rest, main, stop, ?_, ?_, hmain _ (fun _ _ => rfl), ?_⟩
  · have hassoc : pre ++ rest = u ++ (v ++ (w ++ ⟨.punct .dot, stop⟩ :: rest)) := by simp [hpre]
    rw [hassoc]
    exact hvars _ (stops_of_routines hv hw)
  -- the main block starts with `begin`, which starts no routine
  · refine hsubs _ ?_
    obtain ⟨start, r, rfl⟩ := starts_of_block hw
    exact stops_cons.mpr rfl
  · rw [startOf_append hne]

end Programs

end Grammar

end TinyPascal
