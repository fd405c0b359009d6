import TinyPascal.Proofs.Grammar.Expressions
import TinyPascal.Tree.Parser.Stmt

/-!
# `Proofs.Grammar.Statements` — blocks and statements are read as the grammar says

## Contents
- **What each parser reads.** `ReadsStmt`, `ReadsStmts`, `reads_block`.
- **Forms.** `StmtForm` and `StmtsForm`: the grammar of statements, by the first token.
- **Soundness and completeness.** `sound_block`, `complete_block`, by induction on the number of tokens.
-/

namespace TinyPascal

/-! ## What each parser reads -/

namespace Parser

/-- What a statement is, by its first tokens. -/
inductive ReadsStmt : List Token → Stmt → List Token → Prop where
  | assign {x span arrow r value rest} : Reads (expression r) value rest →
      ReadsStmt (⟨.ident x, span⟩ :: ⟨.operator .assign, arrow⟩ :: r)
        (.assign ⟨x, span⟩ value (span.merge value.span)) rest
  | call {x span opening r args stop rest} : Reads (arguments .callClose r) (args, stop) rest →
      ReadsStmt (⟨.ident x, span⟩ :: ⟨.punct .lparen, opening⟩ :: r)
        (.call ⟨x, span⟩ args (span.merge stop)) rest
  | returnNone {span rest} : endsReturn rest = true →
      ReadsStmt (⟨.keyword .return, span⟩ :: rest) (.return none span) rest
  | returnSome {span r value rest} : endsReturn r = false → Reads (expression r) value rest →
      ReadsStmt (⟨.keyword .return, span⟩ :: r)
        (.return (some value) (span.merge value.span)) rest
  | ifThen {span r cond mid r₁ yes rest} : Reads (expression r) cond (⟨.keyword .then, mid⟩ :: r₁) →
      Reads (block r₁) yes rest → Stops (is (.keyword .else)) rest →
      ReadsStmt (⟨.keyword .if, span⟩ :: r) (.ifThen cond yes (span.merge yes.span)) rest
  | ifElse {span r cond mid r₁ yes mid' r₂ no rest} :
      Reads (expression r) cond (⟨.keyword .then, mid⟩ :: r₁) →
      Reads (block r₁) yes (⟨.keyword .else, mid'⟩ :: r₂) → Reads (block r₂) no rest →
      ReadsStmt (⟨.keyword .if, span⟩ :: r) (.ifElse cond yes no (span.merge no.span)) rest
  | while {span r cond mid r₁ body rest} : Reads (expression r) cond (⟨.keyword .do, mid⟩ :: r₁) →
      Reads (block r₁) body rest →
      ReadsStmt (⟨.keyword .while, span⟩ :: r) (.while cond body (span.merge body.span)) rest
  | break {span rest} : ReadsStmt (⟨.keyword .break, span⟩ :: rest) (.break span) rest
  | continue {span rest} : ReadsStmt (⟨.keyword .continue, span⟩ :: rest) (.continue span) rest
  | write {span opening r args stop rest} : Reads (arguments .writelnClose r) (args, stop) rest →
      ReadsStmt (⟨.keyword .writeln, span⟩ :: ⟨.punct .lparen, opening⟩ :: r)
        (.write args (span.merge stop)) rest

section Statements

variable {ts rest : List Token}

/-- Behind a name stands `:=` with a value, or an argument list. -/
theorem reads_assignOrCall {name : Ident} {s : Stmt} :
    Reads (assignOrCall name ts) s rest ↔
      (∃ arrow r value, ts = ⟨.operator .assign, arrow⟩ :: r ∧ Reads (expression r) value rest ∧
        s = .assign name value (name.span.merge value.span)) ∨
      (∃ opening r args stop, ts = ⟨.punct .lparen, opening⟩ :: r ∧
        Reads (arguments .callClose r) (args, stop) rest ∧
        s = .call name args (name.span.merge stop)) := by
  unfold assignOrCall
  constructor
  · intro h
    rcases accept_cases (.operator .assign) ts with ⟨hnone, _⟩ | ⟨arrow, r, rfl⟩
    · rcases accept_cases (.punct .lparen) ts with ⟨hnone', _⟩ | ⟨opening, r, rfl⟩
      · simp only [hnone, hnone'] at h
        exact absurd h not_reads_error
      · simp only [hnone, accept_cons, Parsed.behind] at h
        obtain ⟨⟨args, stop⟩, r₁, hargs, _, h⟩ := reads_bind.mp h
        obtain ⟨rfl, rfl⟩ := reads_ok.mp h
        exact .inr ⟨opening, r, args, stop, rfl, hargs, rfl⟩
    · simp only [accept_cons, Parsed.behind] at h
      obtain ⟨value, r₁, hvalue, _, h⟩ := reads_bind.mp h
      obtain ⟨rfl, rfl⟩ := reads_ok.mp h
      exact .inl ⟨arrow, r, value, rfl, hvalue, rfl⟩
  · rintro (⟨arrow, r, value, rfl, hvalue, rfl⟩ | ⟨opening, r, args, stop, rfl, hargs, rfl⟩)
    · simp only [accept_cons, Parsed.behind]
      exact hvalue.bind fun _ => reads_ok.mpr ⟨rfl, rfl⟩
    · have hno : accept (.operator .assign) (⟨.punct .lparen, opening⟩ :: r) = none := rfl
      simp only [hno, accept_cons, Parsed.behind]
      exact hargs.bind fun _ => reads_ok.mpr ⟨rfl, rfl⟩

/-- A `return` reads no value where the next token ends it, and an expression otherwise. -/
theorem reads_returned {start : Span} {s : Stmt} :
    Reads (returned start ts) s rest ↔
      (endsReturn ts = true ∧ s = .return none start ∧ rest = ts) ∨
      (endsReturn ts = false ∧ ∃ value, Reads (expression ts) value rest ∧
        s = .return (some value) (start.merge value.span)) := by
  unfold returned
  cases hends : endsReturn ts with
  | true =>
      simp only [if_true, reads_ok, Parsed.here, Bool.true_eq_false, false_and, or_false, true_and]
  | false =>
      simp only [Bool.false_eq_true, if_false, false_and, false_or, true_and]
      constructor
      · intro h
        obtain ⟨value, r, hvalue, _, hrest⟩ := reads_bind.mp h
        obtain ⟨rfl, rfl⟩ := reads_ok.mp hrest
        exact ⟨value, hvalue, rfl⟩
      · rintro ⟨value, hvalue, rfl⟩
        exact hvalue.bind fun _ => reads_ok.mpr ⟨rfl, rfl⟩

/-- A `writeln` reads an argument list. -/
theorem reads_written {start : Span} {s : Stmt} :
    Reads (written start ts) s rest ↔
      ∃ opening r args stop, ts = ⟨.punct .lparen, opening⟩ :: r ∧
        Reads (arguments .writelnClose r) (args, stop) rest ∧ s = .write args (start.merge stop) := by
  unfold written
  constructor
  · intro h
    obtain ⟨opening, r, hopen, _, hrest⟩ := reads_bind.mp h
    obtain ⟨⟨args, stop⟩, r₁, hargs, _, hrest⟩ := reads_bind.mp hrest
    obtain ⟨rfl, rfl⟩ := reads_ok.mp hrest
    exact ⟨opening, r, args, stop, reads_expect.mp hopen, hargs, rfl⟩
  · rintro ⟨opening, r, args, stop, rfl, hargs, rfl⟩
    refine (reads_expect.mpr rfl).bind fun _ => ?_
    refine hargs.bind fun _ => ?_
    exact reads_ok.mpr ⟨rfl, rfl⟩

/-- The first token decides which statement was read. -/
theorem readsStmt_of_reads {s : Stmt} (h : Reads (statement ts) s rest) : ReadsStmt ts s rest := by
  rw [statement.eq_def] at h
  split at h
  · exact absurd h not_reads_error
  · split at h
    · obtain ⟨s', r₁, hs, _, h⟩ := reads_bind.mp h
      obtain ⟨rfl, rfl⟩ := reads_ok.mp h
      rcases reads_assignOrCall.mp hs with
        ⟨_, _, _, rfl, hvalue, rfl⟩ | ⟨_, _, _, _, rfl, hargs, rfl⟩
      · exact .assign hvalue
      · exact .call hargs
    · obtain ⟨s', r₁, hs, _, h⟩ := reads_bind.mp h
      obtain ⟨rfl, rfl⟩ := reads_ok.mp h
      rcases reads_returned.mp hs with ⟨hends, rfl, rfl⟩ | ⟨hends, _, hvalue, rfl⟩
      · exact .returnNone hends
      · exact .returnSome hends hvalue
    · obtain ⟨cond, r₁, hcond, _, h⟩ := reads_bind.mp h
      obtain ⟨mid, r₂, hthen, _, h⟩ := reads_bind.mp h
      cases reads_expect.mp hthen
      obtain ⟨yes, r₃, hyes, _, h⟩ := reads_bind.mp h
      rcases accept_cases (.keyword .else) r₃ with ⟨hnone, hstop⟩ | ⟨mid', r₄, rfl⟩
      · simp only [hnone] at h
        obtain ⟨rfl, rfl⟩ := reads_ok.mp h
        exact .ifThen hcond hyes hstop
      · simp only [accept_cons, Parsed.behind] at h
        obtain ⟨no, r₅, hno, _, h⟩ := reads_bind.mp h
        obtain ⟨rfl, rfl⟩ := reads_ok.mp h
        exact .ifElse hcond hyes hno
    · obtain ⟨cond, r₁, hcond, _, h⟩ := reads_bind.mp h
      obtain ⟨mid, r₂, hdo, _, h⟩ := reads_bind.mp h
      cases reads_expect.mp hdo
      obtain ⟨body, r₃, hbody, _, h⟩ := reads_bind.mp h
      obtain ⟨rfl, rfl⟩ := reads_ok.mp h
      exact .while hcond hbody
    · obtain ⟨rfl, rfl⟩ := reads_ok.mp h
      exact .break
    · obtain ⟨rfl, rfl⟩ := reads_ok.mp h
      exact .continue
    · obtain ⟨s', r₁, hs, _, h⟩ := reads_bind.mp h
      obtain ⟨rfl, rfl⟩ := reads_ok.mp h
      obtain ⟨_, _, _, _, rfl, hargs, rfl⟩ := reads_written.mp hs
      exact .write hargs
    · exact absurd h not_reads_error

/-- Each form of a statement is read as it is built. -/
theorem ReadsStmt.reads {s : Stmt} (h : ReadsStmt ts s rest) : Reads (statement ts) s rest := by
  rw [statement.eq_def]
  cases h with
  | assign hvalue =>
      refine Reads.bind (reads_assignOrCall.mpr (.inl ⟨_, _, _, rfl, hvalue, rfl⟩)) fun _ => ?_
      exact reads_ok.mpr ⟨rfl, rfl⟩
  | call hargs =>
      refine Reads.bind (reads_assignOrCall.mpr (.inr ⟨_, _, _, _, rfl, hargs, rfl⟩)) fun _ => ?_
      exact reads_ok.mpr ⟨rfl, rfl⟩
  | returnNone hends =>
      refine Reads.bind (reads_returned.mpr (.inl ⟨hends, rfl, rfl⟩)) fun _ => ?_
      exact reads_ok.mpr ⟨rfl, rfl⟩
  | returnSome hends hvalue =>
      refine Reads.bind (reads_returned.mpr (.inr ⟨hends, _, hvalue, rfl⟩)) fun _ => ?_
      exact reads_ok.mpr ⟨rfl, rfl⟩
  | ifThen hcond hyes hstop =>
      refine hcond.bind fun _ => ?_
      refine (reads_expect.mpr rfl).bind fun _ => ?_
      refine hyes.bind fun _ => ?_
      simp only [accept_of_stops hstop]
      exact reads_ok.mpr ⟨rfl, rfl⟩
  | ifElse hcond hyes hno =>
      refine hcond.bind fun _ => ?_
      refine (reads_expect.mpr rfl).bind fun _ => ?_
      refine hyes.bind fun _ => ?_
      simp only [accept_cons, Parsed.behind]
      exact hno.bind fun _ => reads_ok.mpr ⟨rfl, rfl⟩
  | «while» hcond hbody =>
      refine hcond.bind fun _ => ?_
      refine (reads_expect.mpr rfl).bind fun _ => ?_
      refine hbody.bind fun _ => ?_
      exact reads_ok.mpr ⟨rfl, rfl⟩
  | «break» => exact reads_ok.mpr ⟨rfl, rfl⟩
  | «continue» => exact reads_ok.mpr ⟨rfl, rfl⟩
  | write hargs =>
      refine Reads.bind (reads_written.mpr ⟨_, _, _, _, rfl, hargs, rfl⟩) fun _ => ?_
      exact reads_ok.mpr ⟨rfl, rfl⟩

theorem reads_statement {s : Stmt} : Reads (statement ts) s rest ↔ ReadsStmt ts s rest :=
  ⟨readsStmt_of_reads, ReadsStmt.reads⟩

theorem reads_block {b : Block} :
    Reads (block ts) b rest ↔
      ∃ start r body stop, ts = ⟨.keyword .begin, start⟩ :: r ∧
        Reads (statements r) (body, stop) rest ∧ b = ⟨body, start.merge stop⟩ := by
  rw [block]
  constructor
  · intro h
    obtain ⟨start, r, hbegin, _, hrest⟩ := reads_bind.mp h
    obtain ⟨⟨body, stop⟩, r₁, hbody, _, hrest⟩ := reads_bind.mp hrest
    obtain ⟨rfl, rfl⟩ := reads_ok.mp hrest
    exact ⟨start, r, body, stop, reads_expect.mp hbegin, hbody, rfl⟩
  · rintro ⟨start, r, body, stop, rfl, hbody, rfl⟩
    refine (reads_expect.mpr rfl).bind fun _ => ?_
    refine hbody.bind fun _ => ?_
    exact reads_ok.mpr ⟨rfl, rfl⟩

end Statements

/-- What the statements of a block are, up to and with its `end`. -/
inductive ReadsStmts : List Token → List Stmt × Span → List Token → Prop where
  | done {stop rest} : ReadsStmts (⟨.keyword .end, stop⟩ :: rest) ([], stop) rest
  | skip {span r v rest} : Reads (statements r) v rest →
      ReadsStmts (⟨.punct .semicolon, span⟩ :: r) v rest
  | next {ts first span r more stop rest} :
      Reads (statement ts) first (⟨.punct .semicolon, span⟩ :: r) →
      Reads (statements r) (more, stop) rest → ReadsStmts ts (first :: more, stop) rest
  | last {ts first stop rest} : Reads (statement ts) first (⟨.keyword .end, stop⟩ :: rest) →
      ReadsStmts ts ([first], stop) rest

/-- A statement starts with neither an `end` nor a semicolon. -/
theorem stops_of_statement {ts rest : List Token} {s : Stmt} (h : Reads (statement ts) s rest) :
    Stops (is (.keyword .end)) ts ∧ Stops (is (.punct .semicolon)) ts := by
  cases reads_statement.mp h
  all_goals exact ⟨stops_cons.mpr rfl, stops_cons.mpr rfl⟩

/-- Statements are read exactly as one of the forms of a sequence. -/
theorem reads_statements {ts rest : List Token} {v : List Stmt × Span} :
    Reads (statements ts) v rest ↔ ReadsStmts ts v rest := by
  rw [statements]
  constructor
  · intro h
    rcases accept_cases (.keyword .end) ts with ⟨hnone, _⟩ | ⟨stop, r, rfl⟩
    · rcases accept_cases (.punct .semicolon) ts with ⟨hnone', _⟩ | ⟨span, r, rfl⟩
      · simp only [hnone, hnone'] at h
        obtain ⟨first, r, hfirst, _, h⟩ := reads_bind.mp h
        rcases accept_cases (.punct .semicolon) r with ⟨hno, _⟩ | ⟨span, r₁, rfl⟩
        · simp only [hno] at h
          obtain ⟨stop, r₁, hend, _, h⟩ := reads_bind.mp h
          obtain ⟨rfl, rfl⟩ := reads_ok.mp h
          cases reads_expect.mp hend
          exact .last hfirst
        · simp only [accept_cons, Parsed.behind] at h
          obtain ⟨⟨more, stop⟩, r₂, hmore, _, h⟩ := reads_bind.mp h
          obtain ⟨rfl, rfl⟩ := reads_ok.mp h
          exact .next hfirst hmore
      · simp only [hnone, accept_cons, Parsed.behind] at h
        obtain ⟨body, r₁, hbody, _, h⟩ := reads_bind.mp h
        obtain ⟨rfl, rfl⟩ := reads_ok.mp h
        exact .skip hbody
    · simp only [accept_cons, Parsed.behind] at h
      obtain ⟨rfl, rfl⟩ := reads_ok.mp h
      exact .done
  · intro h
    cases h with
    | done =>
        simp only [accept_cons, Parsed.behind]
        exact reads_ok.mpr ⟨rfl, rfl⟩
    | @skip span r _ _ hbody =>
        have hno : accept (.keyword .end) (⟨.punct .semicolon, span⟩ :: r) = none := rfl
        simp only [hno, accept_cons, Parsed.behind]
        exact hbody.bind fun _ => reads_ok.mpr ⟨rfl, rfl⟩
    | next hfirst hmore =>
        -- neither of the two tokens that are tried first starts a statement
        obtain ⟨hend, hsemi⟩ := stops_of_statement hfirst
        simp only [accept_of_stops hend, accept_of_stops hsemi]
        refine hfirst.bind fun _ => ?_
        simp only [accept_cons, Parsed.behind]
        exact hmore.bind fun _ => reads_ok.mpr ⟨rfl, rfl⟩
    | @last _ first stop _ hfirst =>
        obtain ⟨hend, hsemi⟩ := stops_of_statement hfirst
        simp only [accept_of_stops hend, accept_of_stops hsemi]
        refine hfirst.bind fun _ => ?_
        have hno : accept (.punct .semicolon) (⟨.keyword .end, stop⟩ :: rest) = none := rfl
        simp only [hno]
        exact (reads_expect.mpr rfl).bind fun _ => reads_ok.mpr ⟨rfl, rfl⟩

end Parser

namespace Grammar

open TinyPascal.Parser

/-! ## Forms -/

/-- The forms of a statement. -/
inductive StmtForm : List Token → Prop where
  | assign {x span arrow u} : Spells (.nt .expr) u →
      StmtForm (⟨.ident x, span⟩ :: ⟨.operator .assign, arrow⟩ :: u)
  | call {x span opening u} : Spells argsTail u →
      StmtForm (⟨.ident x, span⟩ :: ⟨.punct .lparen, opening⟩ :: u)
  | ifThen {span u mid w} : Spells (.nt .expr) u → Spells (.nt .block) w →
      StmtForm (⟨.keyword .if, span⟩ :: (u ++ ⟨.keyword .then, mid⟩ :: w))
  | ifElse {span u mid w mid' z} : Spells (.nt .expr) u → Spells (.nt .block) w →
      Spells (.nt .block) z →
      StmtForm (⟨.keyword .if, span⟩ ::
        (u ++ ⟨.keyword .then, mid⟩ :: (w ++ ⟨.keyword .else, mid'⟩ :: z)))
  | while {span u mid w} : Spells (.nt .expr) u → Spells (.nt .block) w →
      StmtForm (⟨.keyword .while, span⟩ :: (u ++ ⟨.keyword .do, mid⟩ :: w))
  | break {span} : StmtForm [⟨.keyword .break, span⟩]
  | continue {span} : StmtForm [⟨.keyword .continue, span⟩]
  | returnNone {span} : StmtForm [⟨.keyword .return, span⟩]
  | returnSome {span u} : Spells (.nt .expr) u → StmtForm (⟨.keyword .return, span⟩ :: u)
  | write {span opening u} : Spells argsTail u →
      StmtForm (⟨.keyword .writeln, span⟩ :: ⟨.punct .lparen, opening⟩ :: u)

/-- The forms of a statement are the alternatives of its rule. -/
theorem spells_stmt {ts : List Token} : Spells (.nt .stmt) ts ↔ StmtForm ts := by
  rw [spells_nt, rule, spells_alt]
  constructor
  · rintro ⟨r, hr, h⟩
    simp only [List.mem_cons, List.not_mem_nil, or_false] at hr
    rcases hr with rfl | rfl | rfl | rfl | rfl | rfl | rfl | rfl
    · obtain ⟨⟨_, span⟩, v, rfl, ⟨x, rfl⟩, hv⟩ := spells_tok_cons.mp (spells_nt.mp h)
      obtain ⟨⟨_, arrow⟩, u, rfl, rfl, hu⟩ := spells_tok_cons.mp hv
      exact .assign (spells_last.mp hu)
    · obtain ⟨⟨_, span⟩, v, rfl, ⟨x, rfl⟩, hv⟩ := spells_tok_cons.mp (spells_nt.mp h)
      obtain ⟨⟨_, opening⟩, u, rfl, rfl, hu⟩ := spells_tok_cons.mp hv
      exact .call hu
    · obtain ⟨⟨_, span⟩, v₁, rfl, rfl, hv₁⟩ := spells_tok_cons.mp (spells_nt.mp h)
      obtain ⟨u, v₂, rfl, hu, hv₂⟩ := spells_seq_cons.mp hv₁
      obtain ⟨⟨_, mid⟩, v₃, rfl, rfl, hv₃⟩ := spells_tok_cons.mp hv₂
      obtain ⟨w, v₄, rfl, hw, hv₄⟩ := spells_seq_cons.mp hv₃
      rcases spells_opt.mp (spells_last.mp hv₄) with rfl | hv₅
      · rw [List.append_nil]
        exact .ifThen hu hw
      · obtain ⟨⟨_, mid'⟩, z, rfl, rfl, hz⟩ := spells_tok_cons.mp hv₅
        exact .ifElse hu hw (spells_last.mp hz)
    · obtain ⟨⟨_, span⟩, v₁, rfl, rfl, hv₁⟩ := spells_tok_cons.mp (spells_nt.mp h)
      obtain ⟨u, v₂, rfl, hu, hv₂⟩ := spells_seq_cons.mp hv₁
      obtain ⟨⟨_, mid⟩, w, rfl, rfl, hw⟩ := spells_tok_cons.mp hv₂
      exact .while hu (spells_last.mp hw)
    · obtain ⟨span, rfl⟩ := spells_kw.mp h
      exact .break
    · obtain ⟨span, rfl⟩ := spells_kw.mp h
      exact .continue
    · obtain ⟨⟨_, span⟩, v, rfl, rfl, hv⟩ := spells_tok_cons.mp (spells_nt.mp h)
      rcases spells_opt.mp (spells_last.mp hv) with rfl | hu
      · exact .returnNone
      · exact .returnSome hu
    · obtain ⟨⟨_, span⟩, v, rfl, rfl, hv⟩ := spells_tok_cons.mp (spells_nt.mp h)
      obtain ⟨⟨_, opening⟩, u, rfl, rfl, hu⟩ := spells_tok_cons.mp hv
      exact .write hu
  · intro h
    cases h with
    | @assign x _ _ u hu =>
        refine ⟨.nt .assign, by simp, spells_nt.mpr ?_⟩
        refine spells_tok_cons.mpr ⟨_, _, rfl, ⟨x, rfl⟩, spells_tok_cons.mpr ⟨_, u, rfl, rfl, ?_⟩⟩
        exact spells_last.mpr hu
    | @call x _ _ u hu =>
        refine ⟨.nt .call, by simp, spells_nt.mpr ?_⟩
        exact spells_tok_cons.mpr ⟨_, _, rfl, ⟨x, rfl⟩, spells_tok_cons.mpr ⟨_, u, rfl, rfl, hu⟩⟩
    | @ifThen _ u _ w hu hw =>
        refine ⟨.nt .if, by simp, spells_nt.mpr (spells_tok_cons.mpr ⟨_, _, rfl, rfl, ?_⟩)⟩
        refine spells_seq_cons.mpr ⟨u, _, rfl, hu, spells_tok_cons.mpr ⟨_, w, rfl, rfl, ?_⟩⟩
        refine spells_seq_cons.mpr ⟨w, [], by simp, hw, ?_⟩
        exact spells_last.mpr (spells_opt.mpr (.inl rfl))
    | @ifElse _ u _ w _ z hu hw hz =>
        refine ⟨.nt .if, by simp, spells_nt.mpr (spells_tok_cons.mpr ⟨_, _, rfl, rfl, ?_⟩)⟩
        refine spells_seq_cons.mpr ⟨u, _, rfl, hu, spells_tok_cons.mpr ⟨_, _, rfl, rfl, ?_⟩⟩
        refine spells_seq_cons.mpr ⟨w, _, rfl, hw, spells_last.mpr (spells_opt.mpr (.inr ?_))⟩
        exact spells_tok_cons.mpr ⟨_, z, rfl, rfl, spells_last.mpr hz⟩
    | @«while» _ u _ w hu hw =>
        refine ⟨.nt .while, by simp, spells_nt.mpr (spells_tok_cons.mpr ⟨_, _, rfl, rfl, ?_⟩)⟩
        refine spells_seq_cons.mpr ⟨u, _, rfl, hu, spells_tok_cons.mpr ⟨_, w, rfl, rfl, ?_⟩⟩
        exact spells_last.mpr hw
    | «break» => exact ⟨.kw .break, by simp, spells_kw.mpr ⟨_, rfl⟩⟩
    | «continue» => exact ⟨.kw .continue, by simp, spells_kw.mpr ⟨_, rfl⟩⟩
    | returnNone =>
        refine ⟨.nt .return, by simp, spells_nt.mpr (spells_tok_cons.mpr ⟨_, [], rfl, rfl, ?_⟩)⟩
        exact spells_last.mpr (spells_opt.mpr (.inl rfl))
    | @returnSome _ u hu =>
        refine ⟨.nt .return, by simp, spells_nt.mpr (spells_tok_cons.mpr ⟨_, u, rfl, rfl, ?_⟩)⟩
        exact spells_last.mpr (spells_opt.mpr (.inr hu))
    | @write _ _ u hu =>
        refine ⟨.nt .write, by simp, spells_nt.mpr (spells_tok_cons.mpr ⟨_, _, rfl, rfl, ?_⟩)⟩
        exact spells_tok_cons.mpr ⟨_, u, rfl, rfl, hu⟩

/-- Statements up to and with the `end` of their block. -/
abbrev stmtsTail : Rhs := .seq [.nt .stmtList, .kw .end]

/-- The forms of statements in a row: one, or none, in front of the `end` or of a semicolon. -/
inductive StmtsForm : List Token → Prop where
  | last {u stop} : Spells (.opt (.nt .stmt)) u → StmtsForm (u ++ [⟨.keyword .end, stop⟩])
  | next {u span v} : Spells (.opt (.nt .stmt)) u → Spells stmtsTail v →
      StmtsForm (u ++ ⟨.punct .semicolon, span⟩ :: v)

theorem spells_stmtsTail {ts : List Token} : Spells stmtsTail ts ↔ StmtsForm ts := by
  constructor
  · intro h
    obtain ⟨l, e, rfl, hl, he⟩ := spells_seq_cons.mp h
    obtain ⟨u, w, rfl, hu, hw⟩ := spells_seq_cons.mp (spells_nt.mp hl)
    obtain ⟨stop, rfl⟩ := spells_kw.mp (spells_last.mp he)
    rcases spells_star.mp (spells_last.mp hw) with rfl | ⟨a, w', rfl, ha, hw'⟩
    · rw [List.append_nil]
      exact .last hu
    · obtain ⟨⟨_, span⟩, u', rfl, rfl, hu'⟩ := spells_tok_cons.mp ha
      have htail : Spells stmtsTail (u' ++ w' ++ [⟨.keyword .end, stop⟩]) := by
        refine spells_seq_cons.mpr ⟨u' ++ w', _, rfl, spells_nt.mpr ?_, he⟩
        exact spells_seq_cons.mpr ⟨u', w', rfl, spells_last.mp hu', spells_last.mpr hw'⟩
      have hform : StmtsForm (u ++ ⟨.punct .semicolon, span⟩ ::
          (u' ++ w' ++ [⟨.keyword .end, stop⟩])) := .next hu htail
      simpa using hform
  · intro h
    cases h with
    | @last u stop hu =>
        refine spells_seq_cons.mpr ⟨u, _, rfl, spells_nt.mpr ?_, spells_last.mpr (spells_kw.mpr ⟨_, rfl⟩)⟩
        refine spells_seq_cons.mpr ⟨u, [], by simp, hu, spells_last.mpr (spells_star.mpr (.inl rfl))⟩
    | @next u span v hu hv =>
        obtain ⟨l, e, rfl, hl, he⟩ := spells_seq_cons.mp hv
        obtain ⟨u', w', rfl, hu', hw'⟩ := spells_seq_cons.mp (spells_nt.mp hl)
        -- the first statement of the tail moves behind the semicolon
        refine spells_seq_cons.mpr ⟨u ++ ⟨.punct .semicolon, span⟩ :: (u' ++ w'), e, by simp,
          spells_nt.mpr ?_, he⟩
        refine spells_seq_cons.mpr ⟨u, _, rfl, hu, spells_last.mpr (spells_star.mpr (.inr
          ⟨⟨.punct .semicolon, span⟩ :: u', w', rfl, ?_, spells_last.mp hw'⟩))⟩
        exact spells_tok_cons.mpr ⟨_, u', rfl, rfl, spells_last.mpr hu'⟩

/-! ## Soundness -/

section Soundness

variable {n : Nat}

theorem sound_expr (n : Nat) : Sound n expression (.nt .expr) :=
  (sound_exprs n).2

theorem sound_args (n : Nat) (close : Expectation) : Sound n (arguments close) argsTail :=
  sound_arguments (sound_expr n) close

/-- Statements, from what is known of blocks with fewer tokens. -/
theorem sound_statement (ih : ∀ m < n, Sound m block (.nt .block)) :
    Sound n statement (.nt .stmt) := by
  intro ts v rest hle h
  cases reads_statement.mp h with
  | @assign x span arrow r value _ hvalue =>
      obtain ⟨u, rfl, hu⟩ := sound_expr _ (Nat.le_refl _) hvalue
      exact ⟨⟨.ident x, span⟩ :: ⟨.operator .assign, arrow⟩ :: u, rfl, spells_stmt.mpr (.assign hu)⟩
  | @call x span opening r args stop _ hargs =>
      obtain ⟨u, rfl, hu⟩ := sound_args _ _ (Nat.le_refl _) hargs
      exact ⟨⟨.ident x, span⟩ :: ⟨.punct .lparen, opening⟩ :: u, rfl, spells_stmt.mpr (.call hu)⟩
  | @returnNone span _ _ =>
      exact ⟨[⟨.keyword .return, span⟩], rfl, spells_stmt.mpr .returnNone⟩
  | @returnSome span r value _ _ hvalue =>
      obtain ⟨u, rfl, hu⟩ := sound_expr _ (Nat.le_refl _) hvalue
      exact ⟨⟨.keyword .return, span⟩ :: u, rfl, spells_stmt.mpr (.returnSome hu)⟩
  | @ifThen span r cond mid r₁ yes _ hcond hyes _ =>
      have hshort := hcond.shorter
      rw [List.length_cons] at hle hshort
      obtain ⟨u, rfl, hu⟩ := sound_expr _ (Nat.le_refl _) hcond
      obtain ⟨w, rfl, hw⟩ := ih r₁.length (by omega) (Nat.le_refl _) hyes
      exact ⟨⟨.keyword .if, span⟩ :: (u ++ ⟨.keyword .then, mid⟩ :: w), by simp,
        spells_stmt.mpr (.ifThen hu hw)⟩
  | @ifElse span r cond mid r₁ yes mid' r₂ no _ hcond hyes hno =>
      have hshort := hcond.shorter
      have hshort' := hyes.shorter
      rw [List.length_cons] at hle hshort hshort'
      obtain ⟨u, rfl, hu⟩ := sound_expr _ (Nat.le_refl _) hcond
      obtain ⟨w, rfl, hw⟩ := ih r₁.length (by omega) (Nat.le_refl _) hyes
      obtain ⟨z, rfl, hz⟩ := ih r₂.length (by omega) (Nat.le_refl _) hno
      exact ⟨⟨.keyword .if, span⟩ ::
          (u ++ ⟨.keyword .then, mid⟩ :: (w ++ ⟨.keyword .else, mid'⟩ :: z)), by simp,
        spells_stmt.mpr (.ifElse hu hw hz)⟩
  | @«while» span r cond mid r₁ body _ hcond hbody =>
      have hshort := hcond.shorter
      rw [List.length_cons] at hle hshort
      obtain ⟨u, rfl, hu⟩ := sound_expr _ (Nat.le_refl _) hcond
      obtain ⟨w, rfl, hw⟩ := ih r₁.length (by omega) (Nat.le_refl _) hbody
      exact ⟨⟨.keyword .while, span⟩ :: (u ++ ⟨.keyword .do, mid⟩ :: w), by simp,
        spells_stmt.mpr (.while hu hw)⟩
  | @«break» span _ => exact ⟨[⟨.keyword .break, span⟩], rfl, spells_stmt.mpr .break⟩
  | @«continue» span _ => exact ⟨[⟨.keyword .continue, span⟩], rfl, spells_stmt.mpr .continue⟩
  | @write span opening r args stop _ hargs =>
      obtain ⟨u, rfl, hu⟩ := sound_args _ _ (Nat.le_refl _) hargs
      exact ⟨⟨.keyword .writeln, span⟩ :: ⟨.punct .lparen, opening⟩ :: u, rfl,
        spells_stmt.mpr (.write hu)⟩

theorem sound_statements (hs : Sound n statement (.nt .stmt)) : Sound n statements stmtsTail := by
  intro ts v rest hle h
  obtain ⟨k, hlen⟩ : ∃ k, ts.length = k := ⟨_, rfl⟩
  induction k using Nat.strongRecOn generalizing ts v with
  | ind k ih =>
      cases reads_statements.mp h with
      | @done stop _ =>
          exact ⟨[⟨.keyword .end, stop⟩], rfl, spells_stmtsTail.mpr
            (.last (u := []) (spells_opt.mpr (.inl rfl)))⟩
      | @skip span r _ _ hbody =>
          rw [List.length_cons] at hle hlen
          obtain ⟨w, rfl, hw⟩ := ih r.length (by omega) (by omega) hbody rfl
          exact ⟨⟨.punct .semicolon, span⟩ :: w, rfl, spells_stmtsTail.mpr
            (.next (u := []) (spells_opt.mpr (.inl rfl)) hw)⟩
      | @next _ first span r more stop _ hfirst hmore =>
          have hshort := hfirst.shorter
          rw [List.length_cons] at hshort
          obtain ⟨u, rfl, hu⟩ := hs hle hfirst
          obtain ⟨w, rfl, hw⟩ := ih r.length (by omega) (by omega) hmore rfl
          exact ⟨u ++ ⟨.punct .semicolon, span⟩ :: w, by simp, spells_stmtsTail.mpr
            (.next (spells_opt.mpr (.inr hu)) hw)⟩
      | @last _ first stop _ hfirst =>
          obtain ⟨u, rfl, hu⟩ := hs hle hfirst
          exact ⟨u ++ [⟨.keyword .end, stop⟩], by simp, spells_stmtsTail.mpr
            (.last (spells_opt.mpr (.inr hu)))⟩

/-- **Blocks are read soundly**, by induction on the number of tokens. -/
theorem sound_block (n : Nat) : Sound n block (.nt .block) := by
  induction n using Nat.strongRecOn with
  | ind n ih =>
      intro ts v rest hle h
      obtain ⟨start, r, body, stop, rfl, hbody, _⟩ := reads_block.mp h
      rw [List.length_cons] at hle
      obtain ⟨u, rfl, hu⟩ := sound_statements (sound_statement ih) (by omega) hbody
      exact ⟨⟨.keyword .begin, start⟩ :: u, rfl, spells_nt.mpr
        (spells_tok_cons.mpr ⟨_, u, rfl, rfl, hu⟩)⟩

end Soundness

/-! ## Completeness -/

/-- The tokens that go on with a statement. Only a semicolon or an `end` follows one, so nothing is lost
    by having every other token go on. -/
def stmtGoesOn : Token.Kind → Bool
  | .punct .semicolon | .keyword .end => false
  | _ => true

section Completeness

variable {n : Nat} {rest : List Token}

theorem complete_expr (n : Nat) : Complete n expression (.nt .expr) exprGoesOn :=
  (complete_exprs n).2

theorem complete_args (n : Nat) (close : Expectation) :
    Complete n (arguments close) argsTail (fun _ => false) :=
  complete_arguments (complete_expr n) close

theorem eq_of_stmtGoesOn {kind : Token.Kind} (h : stmtGoesOn kind = false) :
    kind = .punct .semicolon ∨ kind = .keyword .end := by
  unfold stmtGoesOn at h
  split at h
  · exact .inl rfl
  · exact .inr rfl
  · cases h

/-- What follows a statement ends an expression and an `if` without `else`. -/
theorem stops_of_stmt (h : Stops stmtGoesOn rest) :
    Stops exprGoesOn rest ∧ Stops (is (.keyword .else)) rest := by
  constructor
  · intro t ht
    rcases eq_of_stmtGoesOn (h t ht) with hk | hk
    all_goals rw [hk]; rfl
  · intro t ht
    rcases eq_of_stmtGoesOn (h t ht) with hk | hk
    all_goals rw [hk]; rfl

/-- What follows a statement ends a `return` without a value. -/
theorem endsReturn_of_stops (h : Stops stmtGoesOn rest) : endsReturn rest = true := by
  cases rest with
  | nil => rfl
  | cons t r =>
      rcases eq_of_stmtGoesOn (stops_cons.mp h) with hk | hk
      all_goals simp [endsReturn, hk]

/-- An expression does not end a `return`. -/
theorem endsReturn_of_expr {u : List Token} (h : Spells (.nt .expr) u) :
    endsReturn (u ++ rest) = false := by
  obtain ⟨⟨kind, span⟩, r, rfl, ht⟩ := starts_of_expr h
  simp only [startsExpr] at ht
  split at ht
  all_goals first | rfl | cases ht

/-- Statements, from what is known of blocks with fewer tokens. -/
theorem complete_statement (ih : ∀ m < n, Complete m block (.nt .block) (fun _ => false)) :
    Complete n statement (.nt .stmt) stmtGoesOn := by
  intro pre hle h
  cases spells_stmt.mp h with
  | @assign x span arrow u hu =>
      obtain ⟨value, hvalue⟩ := complete_expr _ (Nat.le_refl _) hu
      exact ⟨_, fun rest hrest => reads_statement.mpr (.assign (hvalue rest (stops_of_stmt hrest).1))⟩
  | @call x span opening u hu =>
      obtain ⟨⟨args, stop⟩, hargs⟩ := complete_args _ .callClose (Nat.le_refl _) hu
      exact ⟨_, fun rest _ => reads_statement.mpr (.call (hargs rest (fun _ _ => rfl)))⟩
  | @ifThen span u mid w hu hw =>
      simp only [List.length_cons, List.length_append] at hle
      obtain ⟨cond, hcond⟩ := complete_expr _ (Nat.le_refl _) hu
      obtain ⟨yes, hyes⟩ := ih w.length (by omega) (Nat.le_refl _) hw
      refine ⟨.ifThen cond yes (span.merge yes.span), fun rest hrest => ?_⟩
      rw [List.cons_append, List.append_assoc]
      exact reads_statement.mpr (.ifThen (hcond _ (stops_cons.mpr rfl)) (hyes rest (fun _ _ => rfl))
        (stops_of_stmt hrest).2)
  | @ifElse span u mid w mid' z hu hw hz =>
      simp only [List.length_cons, List.length_append] at hle
      obtain ⟨cond, hcond⟩ := complete_expr _ (Nat.le_refl _) hu
      obtain ⟨yes, hyes⟩ := ih w.length (by omega) (Nat.le_refl _) hw
      obtain ⟨no, hno⟩ := ih z.length (by omega) (Nat.le_refl _) hz
      refine ⟨.ifElse cond yes no (span.merge no.span), fun rest _ => ?_⟩
      rw [List.cons_append, List.append_assoc, List.cons_append, List.append_assoc]
      exact reads_statement.mpr (.ifElse (hcond _ (stops_cons.mpr rfl)) (hyes _ (fun _ _ => rfl))
        (hno rest (fun _ _ => rfl)))
  | @«while» span u mid w hu hw =>
      simp only [List.length_cons, List.length_append] at hle
      obtain ⟨cond, hcond⟩ := complete_expr _ (Nat.le_refl _) hu
      obtain ⟨body, hbody⟩ := ih w.length (by omega) (Nat.le_refl _) hw
      refine ⟨.while cond body (span.merge body.span), fun rest _ => ?_⟩
      rw [List.cons_append, List.append_assoc]
      exact reads_statement.mpr (.while (hcond _ (stops_cons.mpr rfl)) (hbody rest (fun _ _ => rfl)))
  | @«break» span => exact ⟨.break span, fun rest _ => reads_statement.mpr .break⟩
  | @«continue» span => exact ⟨.continue span, fun rest _ => reads_statement.mpr .continue⟩
  | @returnNone span =>
      refine ⟨.return none span, fun rest hrest => ?_⟩
      exact reads_statement.mpr (.returnNone (endsReturn_of_stops hrest))
  | @returnSome span u hu =>
      obtain ⟨value, hvalue⟩ := complete_expr _ (Nat.le_refl _) hu
      refine ⟨.return (some value) (span.merge value.span), fun rest hrest => ?_⟩
      -- the first token of an expression ends no `return`
      have hends : endsReturn (u ++ rest) = false := endsReturn_of_expr hu
      exact reads_statement.mpr (.returnSome hends (hvalue rest (stops_of_stmt hrest).1))
  | @write span opening u hu =>
      obtain ⟨⟨args, stop⟩, hargs⟩ := complete_args _ .writelnClose (Nat.le_refl _) hu
      exact ⟨_, fun rest _ => reads_statement.mpr (.write (hargs rest (fun _ _ => rfl)))⟩

/-- Statements up to an `end`. An empty statement gives nothing to the list, and the tokens behind the
    next semicolon are fewer. -/
theorem complete_statements (hs : Complete n statement (.nt .stmt) stmtGoesOn) :
    Complete n statements stmtsTail (fun _ => false) := by
  intro pre hle h
  obtain ⟨k, hlen⟩ : ∃ k, pre.length = k := ⟨_, rfl⟩
  induction k using Nat.strongRecOn generalizing pre with
  | ind k ih =>
      cases spells_stmtsTail.mp h with
      | @last u stop hu =>
          rw [List.length_append] at hle
          rcases spells_opt.mp hu with rfl | hstmt
          · exact ⟨([], stop), fun rest _ => reads_statements.mpr .done⟩
          · obtain ⟨first, hfirst⟩ := hs (by omega) hstmt
            refine ⟨([first], stop), fun rest _ => ?_⟩
            rw [List.append_assoc]
            exact reads_statements.mpr (.last (hfirst _ (stops_cons.mpr rfl)))
      | @next u span v hu hv =>
          rw [List.length_append, List.length_cons] at hle hlen
          obtain ⟨⟨more, stop⟩, hmore⟩ := ih v.length (by omega) (by omega) hv rfl
          rcases spells_opt.mp hu with rfl | hstmt
          · refine ⟨(more, stop), fun rest hrest => ?_⟩
            exact reads_statements.mpr (.skip (hmore rest hrest))
          · obtain ⟨first, hfirst⟩ := hs (by omega) hstmt
            refine ⟨(first :: more, stop), fun rest hrest => ?_⟩
            rw [List.append_assoc]
            exact reads_statements.mpr (.next (hfirst _ (stops_cons.mpr rfl)) (hmore rest hrest))

/-- **Blocks are read completely**, whatever follows their `end`. -/
theorem complete_block (n : Nat) : Complete n block (.nt .block) (fun _ => false) := by
  induction n using Nat.strongRecOn with
  | ind n ih =>
      intro pre hle h
      obtain ⟨⟨_, start⟩, u, rfl, rfl, hu⟩ := spells_tok_cons.mp (spells_nt.mp h)
      rw [List.length_cons] at hle
      obtain ⟨⟨body, stop⟩, hbody⟩ := complete_statements (complete_statement ih) (by omega) hu
      refine ⟨⟨body, start.merge stop⟩, fun rest hrest => ?_⟩
      exact reads_block.mpr ⟨start, u ++ rest, body, stop, rfl, hbody rest hrest, rfl⟩

end Completeness

end Grammar

end TinyPascal
