import Mathlib.Data.List.Perm.Basic
import TinyPascal.Proofs.Typing.FinishedTable

/-!
# `Proofs.Typing.DeclarationOrder` — the order of declarations does not matter

Bodies are checked one after the other, and all of them against one table that changes on the way. Still
**a program is accepted in one order of its declarations exactly if it is accepted in every other**: the
rules see the declarations through the names that they declare, and names that differ are looked up alike
in any order. Nor does the order show in the finished table, apart from the order of its entries.

## Contents
- **Names in any order.** `lookup_perm`, `names_perm`.
- **The rules.** `wellTyped_perm`.
- **The finished table.** `Scope.markAll_perm`, `globals_perm`.
- **Checking.** `check_perm_declarations`.
-/

namespace TinyPascal

/-! ## Names in any order -/

/-- Entries with different keys are looked up alike in any order. -/
theorem lookup_perm {α : Type} {l l' : List (String × α)} (h : l.Perm l')
    (hnodup : (l.map Prod.fst).Nodup) (x : String) : l.lookup x = l'.lookup x := by
  induction h with
  | nil => rfl
  | cons entry _ ih =>
      rw [List.lookup_cons, List.lookup_cons, ih (List.nodup_cons.mp hnodup).2]
  | swap a b l =>
      have hne : b.1 ≠ a.1 := by
        intro heq
        exact (List.nodup_cons.mp hnodup).1 (heq ▸ List.mem_cons_self)
      rw [List.lookup_cons, List.lookup_cons, List.lookup_cons, List.lookup_cons]
      -- `x` is at most one of the two keys
      by_cases ha : x = a.1
      · simp [ha, beq_eq_false_iff_ne.mpr hne.symm]
      · simp [beq_eq_false_iff_ne.mpr ha]
  | trans h₁ _ ih₁ ih₂ =>
      rw [ih₁ hnodup, ih₂ ((h₁.map Prod.fst).nodup_iff.mp hnodup)]

section Programs

variable {p q : Program}

theorem roles_perm (h : p.declarations.Perm q.declarations) : p.roles.Perm q.roles :=
  h.flatMap_right Decl.roles

theorem routines_perm (h : p.declarations.Perm q.declarations) : p.routines.Perm q.routines :=
  h.filterMap Decl.routine?

/-- Global names stand for the same in any order, if they differ. -/
theorem names_perm (h : p.declarations.Perm q.declarations) (hnodup : (p.roles.map Prod.fst).Nodup) :
    p.names = q.names := by
  funext x
  exact lookup_perm (roles_perm h) hnodup x

/-! ## The rules -/

/-- **The rules do not depend on the order of declarations.** -/
theorem wellTyped_perm (h : p.declarations.Perm q.declarations) (hmain : p.main = q.main)
    (hp : p.WellTyped) : q.WellTyped := by
  have hnames := names_perm h hp.globals
  refine ⟨((roles_perm h).map Prod.fst).nodup_iff.mp hp.globals, ?_, ?_⟩
  · intro r hr
    rw [← hnames]
    exact hp.routines r ((routines_perm h).mem_iff.mpr hr)
  · rw [← hnames, ← hmain]
    exact hp.main

/-! ## The finished table -/

/-- Marking does not depend on the order of the marked names, nor on that of the entries. -/
theorem Scope.markAll_perm {s s' : Scope} {xs ys : List String} (hs : s.Perm s') (hxs : xs.Perm ys) :
    (s.markAll xs).Perm (s'.markAll ys) := by
  have hsame : s'.markAll xs = s'.markAll ys := by
    unfold Scope.markAll
    simp only [hxs.mem_iff]
  rw [← hsame]
  exact hs.map _

/-- **The finished tables of two orders have the same entries.** -/
theorem globals_perm {t t' : Table} (h : p.declarations.Perm q.declarations) (hmain : p.main = q.main)
    (ht : p.check = .ok t) (ht' : q.check = .ok t') : t.globals.Perm t'.globals := by
  rw [(table_of_check ht).2, (table_of_check ht').2]
  have hentries := (h.flatMap_right Decl.declared).map (fun entry => (entry.1.name, entry.2))
  have hassigned : p.assignedGlobals.Perm q.assignedGlobals := by
    unfold Program.assignedGlobals
    rw [hmain]
    exact ((routines_perm h).flatMap_right Routine.globalTargets).append_right _
  exact Scope.markAll_perm hentries hassigned

end Programs

/-! ## Checking -/

/-- **The order of declarations does not matter.** Of two programs with the same main block and the same
    declarations in different orders, both are accepted or none is. If they are, their tables have the
    same global entries, each with its name, its symbol and its mark. -/
theorem check_perm_declarations (p q : Program) (hdecls : p.declarations.Perm q.declarations)
    (hmain : p.main = q.main) :
    ((∃ t, p.check = .ok t) ↔ ∃ t, q.check = .ok t) ∧
      ∀ t t', p.check = .ok t → q.check = .ok t' → t.globals.Perm t'.globals := by
  refine ⟨?_, fun t t' => globals_perm hdecls hmain⟩
  rw [check_iff_wellTyped, check_iff_wellTyped]
  exact ⟨wellTyped_perm hdecls hmain, wellTyped_perm hdecls.symm hmain.symm⟩

/-- Declarations that refer to each other: `even` and `odd` call each other, and both set `steps`. -/
def evenOdd (declarations : Decl → Decl → Decl → List Decl) : Program :=
  let here : Span := ⟨0, 0, 1, 1⟩
  let id (x : String) : Ident := ⟨x, here⟩
  let var (x : String) : Expr := .var x here
  let step : Stmt := .assign (id "steps") (.binary .add (var "steps") (.int 1 here) here) here
  let routine (x other : String) (zero : Bool) : Decl := .routine
    ⟨id x, [⟨[id "n"], .integer, here⟩], some .boolean,
      ⟨[step, .ifThen (.binary .eq (var "n") (.int 0 here) here)
          ⟨[.return (some (.bool zero here)) here], here⟩ here,
        .return (some (.call (id other) [.binary .sub (var "n") (.int 1 here) here] here)) here], here⟩,
      here⟩
  ⟨declarations (routine "even" "odd" true) (.vars ⟨[id "steps"], .integer, here⟩)
      (routine "odd" "even" false),
    ⟨[.write [.call (id "even") [.int 7 here] here] here], here⟩, here⟩

/-- The variable may stand between the routines that use it, or behind them. -/
theorem check_perm_declarations_evenOdd :
    ∃ t t', (evenOdd fun even steps odd => [even, steps, odd]).check = .ok t ∧
      (evenOdd fun even steps odd => [odd, even, steps]).check = .ok t' ∧
      t.globals.map Prod.fst = ["even", "steps", "odd"] ∧
      t'.globals.map Prod.fst = ["odd", "even", "steps"] ∧ t.globals.Perm t'.globals := by
  have hnames : (evenOdd fun even steps odd => [even, steps, odd]).check.toOption.map
      (fun t => t.globals.map Prod.fst) = some ["even", "steps", "odd"] := by decide +kernel
  have hnames' : (evenOdd fun even steps odd => [odd, even, steps]).check.toOption.map
      (fun t => t.globals.map Prod.fst) = some ["odd", "even", "steps"] := by decide +kernel
  obtain ⟨t, ht, hnames⟩ := Option.map_eq_some_iff.mp hnames
  obtain ⟨t', ht', hnames'⟩ := Option.map_eq_some_iff.mp hnames'
  have hcheck := Except.eq_ok_of_toOption ht
  have hcheck' := Except.eq_ok_of_toOption ht'
  have hperm : (evenOdd fun even steps odd => [even, steps, odd]).declarations.Perm
      (evenOdd fun even steps odd => [odd, even, steps]).declarations :=
    List.perm_append_singleton _ [_, _]
  exact ⟨t, t', hcheck, hcheck', hnames, hnames',
    (check_perm_declarations _ _ hperm rfl).2 t t' hcheck hcheck'⟩

end TinyPascal
