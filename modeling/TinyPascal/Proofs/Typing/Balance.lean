import Mathlib.Data.List.Forall2
import Mathlib.Data.List.Nodup
import TinyPascal.Proofs.Scope.History
import TinyPascal.Proofs.Typing.Analyzer

/-!
# `Proofs.Typing.Balance` — an analyzer ends as it started

Whatever is checked, and wherever a violation is met, an analyzer has behind a statement the scopes, the
routine and the number of loops that it had in front of it. The names in the scopes are the same, in the
same order, and stand for the same; **only marks are set, and only on names that hold a value**. Finding the
type of an expression changes nothing at all.

A scope is a list here, and its names are **distinct**: this is what `Table.declare` sees to, and it holds of
all tables that a program is checked with. Otherwise a name that is marked could stand for a routine a
second time.

## Contents
- **Marking.** `Symbol.Marking`, `Scope.Marking`, `Table.Marking`: the same, up to new marks;
  `marking_modify` for one assignment.
- **Checks.** `Check.OnlyMarks`, `Check.frame_marking`.
- **Distinct names.** `Check.frame_distinct`, `distinct_checks`.
- **Analyses.** `Analyzer.Balanced`, `analysis_balanced`.
-/

namespace TinyPascal

/-! ## Marking -/

/-- The second symbol is the first one, or the first one with a mark that it did not have; a routine gets
    no mark. -/
structure Symbol.Marking (s s' : Symbol) : Prop where
  role : s'.role = s.role
  span : s'.span = s.span
  assigned : s'.assigned = s.assigned ∨
    (s.storage?.isSome = true ∧ s.assigned = false ∧ s'.assigned = true)

namespace Symbol.Marking

variable {s s' s'' : Symbol}

theorem refl (s : Symbol) : s.Marking s :=
  ⟨rfl, rfl, .inl rfl⟩

theorem trans (h : s.Marking s') (h' : s'.Marking s'') : s.Marking s'' := by
  have hstorage : s'.storage? = s.storage? := by
    unfold Symbol.storage?
    rw [h.role]
  refine ⟨h'.role.trans h.role, h'.span.trans h.span, ?_⟩
  rcases h'.assigned with hsame' | ⟨hholds, hfalse, htrue⟩
  · rw [hsame']
    exact h.assigned
  · -- a mark that is new now was not there before
    rcases h.assigned with hsame | ⟨_, _, hmarked⟩
    · exact .inr ⟨hstorage ▸ hholds, hsame ▸ hfalse, htrue⟩
    · rw [hfalse] at hmarked
      cases hmarked

theorem mark (h : s.storage?.isSome = true) : s.Marking (s.mark (some true)) := by
  refine ⟨rfl, rfl, ?_⟩
  cases hassigned : s.assigned with
  | false => exact .inr ⟨h, rfl, rfl⟩
  | true => exact .inl rfl

end Symbol.Marking

/-- A transitive relation is transitive on lists. -/
theorem forall₂_trans {α : Type} {R : α → α → Prop} (hR : ∀ a b c, R a b → R b c → R a c)
    {l l' l'' : List α} (h : List.Forall₂ R l l') (h' : List.Forall₂ R l' l'') : List.Forall₂ R l l'' := by
  induction h generalizing l'' with
  | nil => exact h'
  | cons hab _ ih =>
      cases h' with
      | cons hbc hrest => exact .cons (hR _ _ _ hab hbc) (ih hrest)

/-- The same names in the same order, up to new marks. -/
def Scope.Marking (s s' : Scope) : Prop :=
  List.Forall₂ (fun entry entry' => entry'.1 = entry.1 ∧ entry.2.Marking entry'.2) s s'

namespace Scope

theorem Marking.refl (s : Scope) : s.Marking s :=
  List.forall₂_same.mpr fun entry _ => ⟨rfl, .refl entry.2⟩

theorem Marking.trans {s s' s'' : Scope} (h : s.Marking s') (h' : s'.Marking s'') : s.Marking s'' :=
  forall₂_trans (fun _ _ _ hab hbc => ⟨hbc.1.trans hab.1, hab.2.trans hbc.2⟩) h h'

/-- Marking changes no name. -/
theorem Marking.names {s s' : Scope} (h : s.Marking s') : s'.map Prod.fst = s.map Prod.fst := by
  induction h with
  | nil => rfl
  | cons hentry _ ih => rw [List.map_cons, List.map_cons, hentry.1, ih]

/-- Marking a name that holds a value. If names are distinct, no other entry is marked with it. -/
theorem marking_modify {s : Scope} {x : String} {symbol : Symbol} (hnodup : (s.map Prod.fst).Nodup)
    (hfind : s.find? x = some symbol) (hstorage : symbol.storage?.isSome = true) :
    s.Marking (s.modify x (·.mark (some true))) := by
  have hmem : (x, symbol) ∈ s := by
    obtain ⟨before, after, rfl, _⟩ := List.lookup_eq_some_iff.mp hfind
    exact List.mem_append_right _ List.mem_cons_self
  unfold Marking modify
  rw [List.forall₂_map_right_iff, List.forall₂_same]
  intro entry hentry
  by_cases hx : entry.1 = x
  · have heq : entry = (x, symbol) := List.inj_on_of_nodup_map hnodup hentry hmem hx
    rw [if_pos hx, heq]
    exact ⟨rfl, .mark hstorage⟩
  · rw [if_neg hx]
    exact ⟨rfl, .refl entry.2⟩

end Scope

/-- The same scopes, up to new marks. -/
def Table.Marking (t t' : Table) : Prop :=
  List.Forall₂ Scope.Marking t.scopes t'.scopes

/-- The names of each scope are distinct. -/
def Table.Distinct (t : Table) : Prop :=
  ∀ s ∈ t.scopes, (s.map Prod.fst).Nodup

instance (t : Table) : Decidable t.Distinct :=
  inferInstanceAs (Decidable (∀ s ∈ t.scopes, (s.map Prod.fst).Nodup))

namespace Table

variable {t t' t'' : Table}

theorem Marking.refl (t : Table) : t.Marking t :=
  List.forall₂_same.mpr fun s _ => .refl s

theorem Marking.trans (h : t.Marking t') (h' : t'.Marking t'') : t.Marking t'' :=
  forall₂_trans (fun _ _ _ hab hbc => hab.trans hbc) h h'

theorem length_scopes (t : Table) : t.scopes.length = t.depth := by
  simp [scopes, depth]

theorem Marking.depth (h : t.Marking t') : t'.depth = t.depth := by
  rw [← length_scopes, ← length_scopes, List.Forall₂.length_eq h]

/-- Marks do not make names alike. -/
theorem Marking.distinct (h : t.Marking t') (hd : t.Distinct) : t'.Distinct := by
  unfold Marking at h
  unfold Distinct at hd ⊢
  generalize t.scopes = scopes at h hd
  generalize t'.scopes = scopes' at h ⊢
  induction h with
  | nil => exact fun _ hs => absurd hs List.not_mem_nil
  | cons hs _ ih =>
      obtain ⟨hfirst, hrest⟩ := List.forall_mem_cons.mp hd
      refine List.forall_mem_cons.mpr ⟨?_, ih hrest⟩
      rw [hs.names]
      exact hfirst

theorem Distinct.enter (h : t.Distinct) : t.enter.Distinct := by
  intro s hs
  rcases List.mem_cons.mp hs with rfl | hs
  · exact List.nodup_nil
  · exact h s hs

/-- What was marked inside a scope is marked outside of it, when the scope is closed. -/
theorem Marking.exit (h : t.enter.Marking t') : t.Marking t'.exit := by
  have hdepth := h.depth
  obtain ⟨locals', globals'⟩ := t'
  cases locals' with
  | nil =>
      -- the scope that was opened is still there
      have hpos := t.depth_pos
      rw [depth_enter] at hdepth
      exact absurd (Nat.succ.inj hdepth).symm (Nat.ne_of_gt hpos)
  | cons s outer =>
      cases h with
      | cons _ hrest => exact hrest

/-- Marking the symbol that a lookup finds marks a table whose scopes have distinct names. -/
theorem marking_modifyFirst {x : String} {symbol : Symbol} {scopes : List Scope}
    (hd : ∀ s ∈ scopes, (s.map Prod.fst).Nodup)
    (hfind : scopes.findSome? (fun s => s.find? x) = some symbol)
    (hstorage : symbol.storage?.isSome = true) :
    List.Forall₂ Scope.Marking scopes (modifyFirst x (·.mark (some true)) scopes) := by
  induction scopes with
  | nil => exact .nil
  | cons s outer ih =>
      obtain ⟨hs, houter⟩ := List.forall_mem_cons.mp hd
      rw [List.findSome?_cons] at hfind
      unfold modifyFirst
      cases hx : s.find? x with
      | some found =>
          rw [hx] at hfind
          cases hfind
          exact .cons (Scope.marking_modify hs hx hstorage) (List.forall₂_same.mpr fun s _ => .refl s)
      | none =>
          rw [hx] at hfind
          exact .cons (.refl s) (ih houter hfind)

/-- **One assignment** marks a name that holds a value, and nothing else. -/
theorem marking_update {x : String} {symbol : Symbol} (hd : t.Distinct)
    (hfind : t.lookup? x = some symbol) (hstorage : symbol.storage?.isSome = true)
    (h : t.update x (some true) = .ok t') : t.Marking t' := by
  obtain ⟨_, rfl⟩ := update_eq_ok.mp h
  unfold Marking
  rw [scopes_modify]
  exact marking_modifyFirst hd hfind hstorage

end Table

/-! ## Checks -/

/-- What is assigned to holds a value. -/
theorem storage_of_checkAssign {target : Ident} {value : Expr} {t : Table}
    (h : checkAssign target value t = .ok ()) :
    ∃ symbol, t.lookup? target.name = some symbol ∧ symbol.storage?.isSome = true := by
  obtain ⟨ty, hty, _⟩ := Except.bind_eq_ok.mp h
  obtain ⟨symbol, hresolve, hstorage⟩ := Except.bind_eq_ok.mp hty
  refine ⟨symbol, resolve_eq_ok.mp hresolve, ?_⟩
  cases hheld : symbol.storage? with
  | some ty' => rfl
  | none =>
      rw [hheld] at hstorage
      cases hstorage

/-- A check that sets marks on names that hold a value and changes nothing else, also where it fails. -/
abbrev Check.OnlyMarks {α : Type} (check : EStateM SemanticError Table α) : Prop :=
  Check.Within (fun t t' => t.Distinct → t.Marking t') check

/-- **Checks set marks on names that hold a value**, and change nothing else. -/
theorem Check.frame_marking : Check.Frame (fun t t' => t.Distinct → t.Marking t') where
  refl t _ := .refl t
  trans h h' hd := (h hd).trans (h' ((h hd).distinct hd))
  inScope h hd := (h hd.enter).exit
  assign := by
    intro target value t t' hassign hupdate hd
    obtain ⟨symbol, hfind, hstorage⟩ := storage_of_checkAssign hassign
    exact Table.marking_update hd hfind hstorage hupdate

/-! ## Distinct names -/

theorem Table.distinct_exit {t : Table} (h : t.Distinct) : t.exit.Distinct := by
  obtain ⟨locals, globals⟩ := t
  cases locals with
  | nil => exact h
  | cons s outer => exact fun s' hs' => h s' (List.mem_cons_of_mem _ hs')

/-- A name is declared where it is new. -/
theorem Table.distinct_declare {t t' : Table} {x : String} {symbol : Symbol} (hd : t.Distinct)
    (h : t.declare x symbol = .ok t') : t'.Distinct := by
  obtain ⟨hnew, rfl⟩ := declare_eq_ok.mp h
  have hinnermost : t.scopes = t.innermost :: t.scopes.tail := by
    obtain ⟨locals, globals⟩ := t
    cases locals <;> rfl
  have hnames : (t.innermost.map Prod.fst).Nodup := by
    apply hd
    rw [hinnermost]
    exact List.mem_cons_self
  have hx : x ∉ t.innermost.map Prod.fst := by
    intro hmem
    obtain ⟨entry, hentry, rfl⟩ := List.mem_map.mp hmem
    simpa [Scope.find?] using List.lookup_eq_none_iff.mp hnew entry hentry
  intro s hs
  rw [scopes_setInnermost] at hs
  rcases List.mem_cons.mp hs with rfl | hs
  · unfold Scope.add
    rw [List.map_append, List.map_singleton]
    rw [← List.concat_eq_append]
    exact hnames.concat hx
  · apply hd
    rw [hinnermost]
    exact List.mem_cons_of_mem _ hs

/-- Every check keeps the names in each scope distinct. -/
theorem Check.frame_distinct : Check.Frame (fun t t' => t.Distinct → t'.Distinct) where
  refl _ h := h
  trans h h' hd := h' (h hd)
  inScope h hd := Table.distinct_exit (h hd.enter)
  assign hassign hupdate hd := (Check.frame_marking.assign hassign hupdate hd).distinct hd

/-- **The names of each scope stay distinct** while a program is checked. -/
theorem distinct_checks (p : Program) {t : Table} (h : t.Distinct) :
    (EStateM.state (p.checks t)).Distinct :=
  within_checks Check.frame_distinct (fun hdeclare hd => Table.distinct_declare hd hdeclare) p t h

/-! ## Analyses -/

namespace Analyzer

variable {α : Type}

/-- What surrounds the statement that is checked next. -/
def context (s : Analyzer) : Context :=
  ⟨s.routine, s.loops⟩

/-- **A balanced run** from the analyzer `s`: it stops with a violation, if it stops before its end, and
    leaves the analyzer as it was, up to marks on names that hold a value. -/
structure Balanced (s : Analyzer) (r : EStateM.Result Stop Analyzer α) : Prop where
  stop : ∀ stop, EStateM.error? r = some stop → ∃ e, stop = .violation e
  depth : (EStateM.state r).symbols.depth = s.symbols.depth
  loops : (EStateM.state r).loops = s.loops
  routine : (EStateM.state r).routine = s.routine
  symbols : s.symbols.Marking (EStateM.state r).symbols

/-- A run that leaves the analyzer `s` as it was. -/
structure Untouched (s : Analyzer) (r : EStateM.Result Stop Analyzer α) : Prop where
  stop : ∀ stop, EStateM.error? r = some stop → ∃ e, stop = .violation e
  same : EStateM.state r = s

end Analyzer

namespace Agrees

variable {α : Type} {ctx : Context} {x : EStateM SemanticError Table α} {y : Analysis α}

/-- An analysis leaves the analyzer around the table that the check leaves. -/
theorem state (h : Agrees ctx x y) (t : Table) :
    EStateM.state (y (ctx.analyzer t)) = ctx.analyzer (EStateM.state (x t)) := by
  rw [h t]
  cases x t <;> rfl

/-- An analysis that agrees with a check stops with violations only. -/
theorem stop (h : Agrees ctx x y) (t : Table) (stop : Stop)
    (hstop : EStateM.error? (y (ctx.analyzer t)) = some stop) : ∃ e, stop = .violation e := by
  rw [h t] at hstop
  cases hx : x t with
  | ok a t' =>
      rw [hx] at hstop
      cases hstop
  | error e t' =>
      rw [hx] at hstop
      exact ⟨e, (Option.some.inj hstop).symm⟩

/-- An analysis of a check that only marks leaves loops, routine and scopes as they were. -/
theorem balanced {s : Analyzer} (h : Agrees s.context x y) (hmarks : Check.OnlyMarks x)
    (hd : s.symbols.Distinct) : s.Balanced (y s) := by
  have hstate : EStateM.state (y s) = s.context.analyzer (EStateM.state (x s.symbols)) :=
    h.state s.symbols
  have hmarking : s.symbols.Marking (EStateM.state (x s.symbols)) := hmarks s.symbols hd
  refine ⟨h.stop s.symbols, ?_, ?_, ?_, ?_⟩
  · rw [hstate]
    exact hmarking.depth
  · rw [hstate]
    rfl
  · rw [hstate]
    rfl
  · rw [hstate]
    exact hmarking

/-- An analysis of a check that only looks leaves the analyzer as it was. -/
theorem untouched {s : Analyzer} {f : Table → Except SemanticError α}
    (h : Agrees s.context (Check.ofTable f) y) : s.Untouched (y s) := by
  refine ⟨h.stop s.symbols, ?_⟩
  have hstate := h.state s.symbols
  rw [Check.state_ofTable] at hstate
  exact hstate

end Agrees

/-- **An analyzer is balanced, on success and on failure.** Whatever analyzer a statement, a block or a list
    of statements is checked with, behind it the number of scopes, the number of loops and the routine are
    as before, and so are the names of every scope, their order, roles and places; marks are set only where
    there was none, and only on names that hold a value. Types of expressions and results of calls are
    found without any change. The checks are those of `Stmt.check`. No run leaves the global scope or a
    loop that it did not enter; in particular the analysis of a program does not, and comes to what
    `Program.checks` comes to. The names of each scope are distinct in front of a statement; the analysis of
    a program keeps them so. -/
theorem analysis_balanced (s : Analyzer) (h : s.symbols.Distinct) :
    (∀ st : Stmt, s.Balanced (st.analyze s)) ∧
    (∀ b : Block, s.Balanced (b.analyze s)) ∧
    (∀ ss : List Stmt, s.Balanced (analyzeAll ss s)) ∧
    (∀ e : Expr, s.Untouched (e.infer s)) ∧
    (∀ callee args span, s.Untouched (inferCall callee args span s)) ∧
    (∀ st : Stmt, st.analyze s =
      seenThrough .violation s.context.analyzer (st.check s.context s.symbols)) ∧
    ∀ p : Program,
      (∀ stop, EStateM.error? (p.analyze {}) = some stop → ∃ e, stop = .violation e) ∧
      p.analyze {} = seenThrough .violation (Context.analyzer {}) (p.checks {}) ∧
      (EStateM.state (p.analyze {})).symbols.Distinct := by
  refine ⟨fun st => ?_, fun b => ?_, fun ss => ?_, fun e => ?_, fun callee args span => ?_,
    fun st => ?_, fun p => ⟨?_, ?_, ?_⟩⟩
  · exact (agrees_analyze st s.context).balanced (within_check Check.frame_marking st s.context) h
  · exact (agrees_analyze_block b s.context).balanced (within_check_block Check.frame_marking b s.context) h
  · exact (agrees_analyzeAll ss s.context).balanced (within_checkAll Check.frame_marking ss s.context) h
  · exact (agrees_infer e).untouched
  · exact (agrees_inferCall callee args span).untouched
  · exact agrees_analyze st s.context s.symbols
  · exact (agrees_analyze_program p).stop {}
  · exact agrees_analyze_program p {}
  · have hstart : Table.Distinct {} := by decide
    have hstate : EStateM.state (p.analyze {}) = Context.analyzer {} (EStateM.state (p.checks {})) :=
      (agrees_analyze_program p).state {}
    rw [hstate]
    exact distinct_checks p hstart

/-- In the body of a function, inside two loops, with a block open inside the scope of the parameter. -/
def deepAnalyzer : Analyzer where
  symbols := ⟨[[], [("n", .param .integer {})]],
    [("x", .var .integer {}), ("f", .routine ⟨[.integer], some .integer⟩ {})]⟩
  routine := some ("f", some .integer)
  loops := 2

/-- A loop in which `x` is assigned to, and then, one block further in, a name that is not declared. -/
def nestedFailure : Stmt :=
  .while (.bool true {}) ⟨[.assign ⟨"x", {}⟩ (.var "n" {}) {},
    .ifThen (.bool true {}) ⟨[.assign ⟨"y", {}⟩ (.int 1 {}) {}], {}⟩ {}], {}⟩ {}

/-- The violation is met two blocks further in and inside a third loop; `x` is marked, and the rest is as
    before. -/
theorem analysis_balanced_nestedFailure :
    deepAnalyzer.symbols.Distinct ∧ deepAnalyzer.Balanced (nestedFailure.analyze deepAnalyzer) ∧
      EStateM.error? (nestedFailure.analyze deepAnalyzer) =
        some (.violation ⟨.undeclared "y", {}⟩) ∧
      (EStateM.state (nestedFailure.analyze deepAnalyzer)).symbols.lookup? "x" =
        some ⟨.var .integer, true, {}⟩ := by
  have hdistinct : deepAnalyzer.symbols.Distinct := by decide
  have hbalanced := (analysis_balanced deepAnalyzer hdistinct).1 nestedFailure
  exact ⟨hdistinct, hbalanced, by decide, by decide⟩

end TinyPascal
