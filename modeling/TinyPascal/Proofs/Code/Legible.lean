import TinyPascal.Proofs.Code.Sections
import TinyPascal.Proofs.Code.Text
import TinyPascal.Proofs.Compile
import TinyPascal.Proofs.Tree.Spelling
import TinyPascal.Proofs.Typing.Decides

/-!
# `Proofs.Code.Legible` — what the code of a text looks like

The code of a source text is tamer than instructions are in general. **Every name in it is a word**:
identifiers are, and so are temporaries and labels. **The main section has no returns**, since the rules
for statements ban them. And sections have the form that routines and the main block give them: a main
section has no name, a named section has a result type exactly if it is a function.

## Contents
- **Instructions.** `Instr.Legible`, `LegibleCode`; `isWord_numbered`.
- **Expressions and statements.** `legible_lower`, `legible_lower_stmt`.
- **Sections.** `CodeSection.Legible`; `legible_of_compile`.
-/

namespace TinyPascal

/-! ## Instructions -/

def Instr.isReturn : Instr → Bool
  | .ret _ => true
  | _ => false

/-- The names of the instruction are words, and it does not return from the main section. -/
structure Instr.Legible (main : Bool) (i : Instr) : Prop where
  words : ∀ x ∈ i.names, isWord x = true
  stays : main = true → i.isReturn = false

/-- Legible instructions in a row. -/
def LegibleCode (main : Bool) (code : List Instr) : Prop :=
  ∀ i ∈ code, i.Legible main

/-- A number behind a word makes a word. -/
theorem isWord_numbered {stem : String} (h : isWord stem = true) (n : Nat) :
    isWord (stem ++ n.repr) = true := by
  obtain ⟨c, cs, hstem, hc, hcs⟩ := isWord_iff.mp h
  refine isWord_iff.mpr ⟨c, cs ++ n.repr.toList, ?_, hc, ?_⟩
  · rw [String.toList_append, hstem, List.cons_append]
  · intro d hd
    rcases List.mem_append.mp hd with hd | hd
    · exact hcs d hd
    · have hdigit := isDigit_of_mem_repr hd
      simp [Lexeme.isWordRest, Char.isAlphanum, hdigit]

/-- The name of a temporary is a word. -/
theorem isWord_tempName (n : Nat) : isWord (tempName n) = true :=
  isWord_numbered (by decide) n

section Code

variable {main : Bool} {a b : List Instr} {c : Lowered Place} {i : Instr}

theorem LegibleCode.nil : LegibleCode main [] :=
  fun _ hi => absurd hi List.not_mem_nil

theorem LegibleCode.append (ha : LegibleCode main a) (hb : LegibleCode main b) :
    LegibleCode main (a ++ b) :=
  List.forall_mem_append.mpr ⟨ha, hb⟩

theorem LegibleCode.cons (hi : i.Legible main) (ha : LegibleCode main a) : LegibleCode main (i :: a) :=
  List.forall_mem_cons.mpr ⟨hi, ha⟩

theorem LegibleCode.one (hi : i.Legible main) : LegibleCode main [i] :=
  .cons hi .nil

/-- The code of a value is legible, and the place of the value is a word. -/
structure LegibleValue (main : Bool) (c : Lowered Place) : Prop where
  code : LegibleCode main c.code
  place : isWord c.result = true

/-- One more instruction sets the temporary that holds the value. -/
theorem LegibleValue.temp (ha : LegibleCode main a) (n k : Nat) (hi : i.Legible main) :
    LegibleValue main ⟨a ++ [i], tempName n, k⟩ :=
  ⟨ha.append (.one hi), isWord_tempName n⟩

/-! ## Layouts -/

variable {l stop : Label} {body yes no : List Instr}

theorem legible_label (h : isWord l = true) : (Instr.label l).Legible main :=
  ⟨by simp [Instr.names, h], fun _ => rfl⟩

theorem legible_goto (h : isWord l = true) : (Instr.goto l).Legible main :=
  ⟨by simp [Instr.names, h], fun _ => rfl⟩

theorem legible_ifGoto (hc : LegibleValue main c) (h : isWord l = true) :
    (Instr.ifGoto c.result l).Legible main :=
  ⟨by simp [Instr.names, hc.place, h], fun _ => rfl⟩

theorem legible_ifNotGoto (hc : LegibleValue main c) (h : isWord l = true) :
    (Instr.ifNotGoto c.result l).Legible main :=
  ⟨by simp [Instr.names, hc.place, h], fun _ => rfl⟩

/-- The layout of an `if` without `else` is legible if its parts are and its label is a word. -/
theorem LegibleCode.ifThen (hc : LegibleValue main c) (hstop : isWord stop = true)
    (hbody : LegibleCode main body) : LegibleCode main (Layout.ifThen c stop body) :=
  hc.code.append (.cons (legible_ifNotGoto hc hstop) (hbody.append (.one (legible_label hstop))))

/-- The layout of an `if` with `else` is legible if its parts are and its labels are words. -/
theorem LegibleCode.ifElse {first second : Label} (hc : LegibleValue main c)
    (hfirst : isWord first = true) (hsecond : isWord second = true) (hstop : isWord stop = true)
    (hyes : LegibleCode main yes) (hno : LegibleCode main no) :
    LegibleCode main (Layout.ifElse c first second stop yes no) := by
  have hend : LegibleCode main (no ++ [.label stop]) := hno.append (.one (legible_label hstop))
  have hmid : LegibleCode main (yes ++ .goto stop :: .label second :: (no ++ [.label stop])) :=
    hyes.append (.cons (legible_goto hstop) (.cons (legible_label hsecond) hend))
  exact hc.code.append (.cons (legible_ifGoto hc hfirst)
    (.cons (legible_goto hsecond) (.cons (legible_label hfirst) hmid)))

/-- The layout of a loop is legible if its parts are and its labels are words. -/
theorem LegibleCode.loop {l : Loop} (hc : LegibleValue main c) (hstart : isWord l.start = true)
    (hstop : isWord l.stop = true) (hbody : LegibleCode main body) :
    LegibleCode main (Layout.loop c l body) := by
  have hend : LegibleCode main [.goto l.start, .label l.stop] :=
    .cons (legible_goto hstart) (.one (legible_label hstop))
  exact .cons (legible_label hstart)
    (hc.code.append (.cons (legible_ifNotGoto hc hstop) (hbody.append hend)))

end Code

/-! ## Expressions and statements -/

section Lowering

variable (main : Bool)

mutual

/-- The code of an expression is legible if its names are words. -/
theorem legible_lower : ∀ (e : Expr) (k : Nat), (∀ x ∈ e.identifiers, isWord x = true) →
    LegibleValue main (e.lower k)
  | .int n _, k, _ => .temp .nil _ _ ⟨by simp [Instr.names, isWord_tempName], fun _ => rfl⟩
  | .bool b _, k, _ => .temp .nil _ _ ⟨by simp [Instr.names, isWord_tempName], fun _ => rfl⟩
  | .var name _, k, h => ⟨.nil, h name (List.mem_singleton_self name)⟩
  | .paren inner _, k, h => legible_lower inner k h
  | .not operand _, k, h => by
      have ha := legible_lower operand k h
      exact .temp ha.code _ _ ⟨by simp [Instr.names, isWord_tempName, ha.place], fun _ => rfl⟩
  | .binary op left right _, k, h => by
      obtain ⟨hleft, hright⟩ := List.forall_mem_append.mp h
      have ha := legible_lower left k hleft
      have hb := legible_lower right (left.lower k).temps hright
      exact .temp (ha.code.append hb.code) _ _
        ⟨by simp [Instr.names, isWord_tempName, ha.place, hb.place], fun _ => rfl⟩
  | .call callee args _, k, h => by
      obtain ⟨hcallee, hargs⟩ := List.forall_mem_cons.mp h
      obtain ⟨hcode, hplaces⟩ := legible_lowerArgs args k hargs
      refine .temp hcode _ _ ⟨?_, fun _ => rfl⟩
      exact List.forall_mem_cons.mpr ⟨isWord_tempName _, List.forall_mem_cons.mpr ⟨hcallee, hplaces⟩⟩

/-- The code of arguments is legible and each of their places is a word, if the identifiers in them are.
    -/
theorem legible_lowerArgs : ∀ (es : List Expr) (k : Nat), (∀ x ∈ identifiersOf es, isWord x = true) →
    LegibleCode main (lowerArgs es k).code ∧ ∀ x ∈ (lowerArgs es k).result, isWord x = true
  | [], k, _ => ⟨.nil, fun _ hx => absurd hx List.not_mem_nil⟩
  | e :: es, k, h => by
      obtain ⟨he, hes⟩ := List.forall_mem_append.mp h
      have ha := legible_lower e k he
      obtain ⟨hcode, hplaces⟩ := legible_lowerArgs es (e.lower k).temps hes
      exact ⟨ha.code.append hcode, List.forall_mem_cons.mpr ⟨ha.place, hplaces⟩⟩

end

/-- The code of a `writeln` is legible if the identifiers in its arguments are words. -/
theorem legible_lowerPrints {es : List Expr} (h : ∀ e ∈ es, ∀ x ∈ e.identifiers, isWord x = true)
    (k : Nat) : LegibleCode main (lowerPrints es k).code := by
  induction es generalizing k with
  | nil => exact .nil
  | cons e es ih =>
      obtain ⟨he, hes⟩ := List.forall_mem_cons.mp h
      have ha := legible_lower main e k he
      have hprint : (Instr.print (e.lower k).result).Legible main :=
        ⟨by simp [Instr.names, ha.place], fun _ => rfl⟩
      exact (ha.code.append (.one hprint)).append (ih hes _)

end Lowering

section Statements

variable {Γ : Names} {routine : Option (Option Ty)} {s s' : Supply}

mutual

/-- **The code of a statement is legible** if its names are words and it keeps the rules. -/
theorem legible_lower_stmt : ∀ (st : Stmt) {loop : Option Loop} {inLoop : Bool} {s s' : Supply}
    {code : List Instr}, StmtOk Γ routine inLoop st → (∀ x ∈ st.targets, isWord x = true) →
    (∀ e ∈ st.exprs, ∀ x ∈ e.identifiers, isWord x = true) →
    (∀ l ∈ loop, isWord l.start = true ∧ isWord l.stop = true) →
    st.lower loop s = .ok code s' → LegibleCode routine.isNone code
  | .assign target value _, _, _, s, _, _, _, htargets, hexprs, _, h => by
      rw [lower_assign] at h
      cases h
      have ha := legible_lower routine.isNone value s.temps (hexprs value List.mem_cons_self)
      have htarget := htargets target.name List.mem_cons_self
      exact ha.code.append (.one ⟨by simp [Instr.names, htarget, ha.place], fun _ => rfl⟩)
  | .call callee args span, _, _, s, _, _, _, _, hexprs, _, h => by
      rw [lower_call] at h
      cases h
      exact (legible_lower _ _ _ (hexprs _ List.mem_cons_self)).code
  | .return none _, _, _, _, _, _, hok, _, _, _, h => by
      rw [lower_return_none] at h
      cases h
      rw [stmtOk_return_none.mp hok]
      exact .one ⟨by simp [Instr.names], fun hmain => by cases hmain⟩
  | .return (some value) _, _, _, s, _, _, hok, _, hexprs, _, h => by
      rw [lower_return_some] at h
      cases h
      obtain ⟨ty, rfl, _⟩ := stmtOk_return_some.mp hok
      have ha := legible_lower false value s.temps (hexprs value List.mem_cons_self)
      exact ha.code.append (.one ⟨by simp [Instr.names, ha.place], fun hmain => by cases hmain⟩)
  | .ifThen cond yes _, _, _, s, _, _, hok, htargets, hexprs, hloop, h => by
      obtain ⟨body, hb, rfl⟩ := lower_ifThen_eq_ok h
      obtain ⟨hcond, hexprs⟩ := List.forall_mem_cons.mp hexprs
      exact .ifThen (legible_lower _ cond s.temps hcond) (isWord_numbered (by decide) _)
        (legible_lower_block yes (stmtOk_ifThen.mp hok).2 htargets hexprs hloop hb)
  | .ifElse cond yes no _, _, _, s, _, _, hok, htargets, hexprs, hloop, h => by
      obtain ⟨a, s₁, b, ha, hb, rfl⟩ := lower_ifElse_eq_ok h
      obtain ⟨_, hyes, hno⟩ := stmtOk_ifElse.mp hok
      obtain ⟨hcond, hexprs⟩ := List.forall_mem_cons.mp hexprs
      obtain ⟨hexprs, hexprs'⟩ := List.forall_mem_append.mp hexprs
      obtain ⟨htargets, htargets'⟩ := List.forall_mem_append.mp htargets
      exact .ifElse (legible_lower _ cond s.temps hcond) (isWord_numbered (by decide) _)
        (isWord_numbered (by decide) _) (isWord_numbered (by decide) _)
        (legible_lower_block yes hyes htargets hexprs hloop ha)
        (legible_lower_block no hno htargets' hexprs' hloop hb)
  | .while cond body _, _, _, s, _, _, hok, htargets, hexprs, _, h => by
      obtain ⟨a, ha, rfl⟩ := lower_while_eq_ok h
      obtain ⟨hcond, hexprs⟩ := List.forall_mem_cons.mp hexprs
      have hstart : isWord (Loop.fresh s.labels).start = true := isWord_numbered (by decide) _
      have hstop : isWord (Loop.fresh s.labels).stop = true := isWord_numbered (by decide) _
      have hloop : ∀ l ∈ some (Loop.fresh s.labels), isWord l.start = true ∧ isWord l.stop = true := by
        intro l hl
        cases hl
        exact ⟨hstart, hstop⟩
      exact .loop (legible_lower _ cond s.temps hcond) hstart hstop
        (legible_lower_block body (stmtOk_while.mp hok).2 htargets hexprs hloop ha)
  | .break _, none, _, _, _, _, _, _, _, _, h => by cases h
  | .break _, some l, _, _, _, _, _, _, _, hloop, h => by
      cases h
      exact .one ⟨by simp [Instr.names, (hloop l rfl).2], fun _ => rfl⟩
  | .continue _, none, _, _, _, _, _, _, _, _, h => by cases h
  | .continue _, some l, _, _, _, _, _, _, _, hloop, h => by
      cases h
      exact .one ⟨by simp [Instr.names, (hloop l rfl).1], fun _ => rfl⟩
  | .write args _, _, _, _, _, _, _, _, hexprs, _, h => by
      rw [lower_write] at h
      cases h
      exact legible_lowerPrints _ hexprs _

/-- The code of a well-typed block is legible if its identifiers and the labels of the loop around it are
    words. -/
theorem legible_lower_block : ∀ (b : Block) {loop : Option Loop} {inLoop : Bool} {s s' : Supply}
    {code : List Instr}, StmtsOk Γ routine inLoop b.statements → (∀ x ∈ b.targets, isWord x = true) →
    (∀ e ∈ b.exprs, ∀ x ∈ e.identifiers, isWord x = true) →
    (∀ l ∈ loop, isWord l.start = true ∧ isWord l.stop = true) →
    b.lower loop s = .ok code s' → LegibleCode routine.isNone code
  | ⟨statements, _⟩, _, _, _, _, _, hok, htargets, hexprs, hloop, h =>
      legible_lowerAll statements hok htargets hexprs hloop h

theorem legible_lowerAll : ∀ (ss : List Stmt) {loop : Option Loop} {inLoop : Bool} {s s' : Supply}
    {code : List Instr}, StmtsOk Γ routine inLoop ss → (∀ x ∈ targetsOf ss, isWord x = true) →
    (∀ e ∈ exprsOf ss, ∀ x ∈ e.identifiers, isWord x = true) →
    (∀ l ∈ loop, isWord l.start = true ∧ isWord l.stop = true) →
    lowerAll loop ss s = .ok code s' → LegibleCode routine.isNone code
  | [], _, _, _, _, _, _, _, _, _, h => by
      cases h
      exact .nil
  | first :: more, _, _, _, _, _, hok, htargets, hexprs, hloop, h => by
      obtain ⟨a, s₁, b, ha, hb, rfl⟩ := lowerAll_cons_eq_ok h
      obtain ⟨hfirst, hmore⟩ := stmtsOk_cons.mp hok
      obtain ⟨htargets, htargets'⟩ := List.forall_mem_append.mp htargets
      obtain ⟨hexprs, hexprs'⟩ := List.forall_mem_append.mp hexprs
      exact (legible_lower_stmt first hfirst htargets hexprs hloop ha).append
        (legible_lowerAll more hmore htargets' hexprs' hloop hb)

end

/-- The code of a body is legible. -/
theorem legible_body {b : Block} {code : List Instr} (hok : StmtsOk Γ routine false b.statements)
    (hwords : ∀ x ∈ b.identifiers, isWord x = true) (h : b.lower none s = .ok code s') :
    LegibleCode routine.isNone code := by
  obtain ⟨htargets, hexprs⟩ := List.forall_mem_append.mp hwords
  refine legible_lower_block b hok htargets (fun e he x hx => ?_) (fun l hl => by cases hl) h
  exact hexprs x (List.mem_flatMap.mpr ⟨e, he, hx⟩)

end Statements

/-! ## Sections -/

/-- The section of the main block, or one of a routine, with legible code. -/
structure CodeSection.Legible (sec : CodeSection) : Prop where
  plain : sec.body.all Instr.isPlain = true
  body : LegibleCode (sec.kind == .main) sec.body
  frame : sec.kind = .main ∧ sec.name = none ∧ sec.result = none ∨
    ∃ x, isWord x = true ∧ sec.name = some x ∧
      sec.kind = if sec.result.isSome then .function else .procedure

/-- The section of a well-typed routine is legible if its name and its identifiers are words. -/
theorem legible_sectionOf {r : Routine} {Γ : Names} {body : List Instr} {s s' : Supply}
    (hr : r.WellTyped Γ) (hname : isWord r.name.name = true)
    (hwords : ∀ x ∈ r.body.identifiers, isWord x = true) (h : r.body.lower none s = .ok body s') :
    (r.sectionOf body).Legible := by
  have hbody := legible_body hr.body hwords h
  refine ⟨plain_lower_block _ h, ?_, .inr ⟨r.name.name, hname, rfl, r.sectionKind_eq⟩⟩
  have hkind : ((r.sectionOf body).kind == .main) = false := by
    show (r.sectionKind == .main) = false
    rw [r.sectionKind_eq]
    cases r.result <;> rfl
  rw [hkind]
  exact hbody

/-- No declaration of variables stands inside a section. -/
theorem CodeSection.Legible.filter_code {sec : CodeSection} (h : sec.Legible) :
    sec.code.filter (fun i => !i.isDecl) = sec.code := by
  rw [List.filter_eq_self]
  intro i hi
  rcases List.mem_cons.mp hi with rfl | hi
  · rfl
  rcases List.mem_append.mp hi with hi | hi
  · have hplain := List.all_eq_true.mp h.plain i hi
    cases i with
    | decl names ty => cases hplain
    | _ => rfl
  · rw [List.mem_singleton] at hi
    subst hi
    rfl

/-- Outside of declarations of variables, the code of declarations is a row of legible sections. -/
theorem legible_lowerDecls {Γ : Names} {ds : List Decl} {s s' : Supply} {code : List Instr}
    (hwell : ∀ r ∈ ds.filterMap Decl.routine?, r.WellTyped Γ)
    (hwords : ∀ x ∈ ds.flatMap Decl.identifiers, isWord x = true)
    (h : lowerDecls ds s = .ok code s') :
    ∃ secs : List CodeSection, (∀ sec ∈ secs, sec.Legible) ∧
      code.filter (fun i => !i.isDecl) = secs.flatMap CodeSection.code := by
  induction ds generalizing s code with
  | nil =>
      cases h
      exact ⟨[], fun _ hsec => absurd hsec List.not_mem_nil, rfl⟩
  | cons d ds ih =>
      rw [List.flatMap_cons] at hwords
      obtain ⟨hd, hds⟩ := List.forall_mem_append.mp hwords
      cases d with
      | vars decl =>
          obtain ⟨rest, hrest, rfl⟩ := lowerDecls_vars_eq_ok h
          obtain ⟨secs, hsecs, hfilter⟩ := ih hwell hds hrest
          exact ⟨secs, hsecs, hfilter⟩
      | routine r =>
          obtain ⟨body, s₁, rest, hbody, hrest, rfl⟩ := lowerDecls_routine_eq_ok h
          obtain ⟨hr, hmore⟩ := List.forall_mem_cons.mp hwell
          obtain ⟨hname, hothers⟩ := List.forall_mem_cons.mp hd
          have hsec := legible_sectionOf hr hname (List.forall_mem_append.mp hothers).2 hbody
          obtain ⟨secs, hsecs, hfilter⟩ := ih hmore hds hrest
          refine ⟨r.sectionOf body :: secs, List.forall_mem_cons.mpr ⟨hsec, hsecs⟩, ?_⟩
          rw [List.filter_append, hfilter, hsec.filter_code]
          rfl

/-- **The code of a text is a row of legible sections**, but for its declarations of variables. -/
theorem legible_of_compile {source : String} {code : List Instr} (h : compile source = .ok code) :
    ∃ secs : List CodeSection, (∀ sec ∈ secs, sec.Legible) ∧
      code.filter (fun i => !i.isDecl) = secs.flatMap CodeSection.code := by
  obtain ⟨tree, t, hcheck, hcode⟩ := compile_eq_ok h
  obtain ⟨hparse, htable⟩ := check_eq_ok_iff.mp hcheck
  have hwell := wellTyped_of_check htable
  obtain ⟨hdecls, hmain⟩ := List.forall_mem_append.mp (isWord_of_parse hparse)
  obtain ⟨s', hlower⟩ := code_eq_ok hcode
  obtain ⟨a, s₁, body, ha, hbody, rfl⟩ := lower_program_eq_ok hlower
  obtain ⟨secs, hsecs, hfilter⟩ := legible_lowerDecls hwell.routines hdecls ha
  have hlast : (CodeSection.main body).Legible :=
    ⟨plain_lower_block _ hbody, legible_body hwell.main hmain hbody, .inl ⟨rfl, rfl, rfl⟩⟩
  refine ⟨secs ++ [.main body], List.forall_mem_append.mpr ⟨hsecs, ?_⟩, ?_⟩
  · intro sec hsec
    rw [List.mem_singleton] at hsec
    exact hsec ▸ hlast
  · rw [List.filter_append, hfilter, hlast.filter_code, List.flatMap_append, List.flatMap_singleton]

end TinyPascal
