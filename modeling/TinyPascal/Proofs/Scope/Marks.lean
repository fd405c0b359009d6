import TinyPascal.Proofs.Scope.Mapped

/-!
# `Proofs.Scope.Marks` — tables up to assignment marks

Checking a statement changes the table in one way only: names are marked as assigned to. `Table.unmarked`
is what a table looks like without the marks, `Table.roleOf` what its names stand for; neither depends on
the marks.

## Contents
- **Unmarked tables.** `unmarked_update`, `unmarked_enter`, `unmarked_exit`: how they change.
- **Roles.** `Table.roleOf`, `roleOf_of_unmarked`.
- **Declarations.** `declare_eq_ok`; `roleOf_inner`: the innermost scope hides the outer ones.
-/

namespace TinyPascal

/-! ## Unmarked tables -/

variable {ρ : Type}

/-- A symbol without its mark. -/
def Symbol.unmarked (s : Symbol ρ) : Symbol ρ :=
  { s with assigned := false }

/-- A scope without marks. -/
def Scope.unmarked (s : Scope ρ) : Scope ρ :=
  s.map (fun entry => (entry.1, entry.2.unmarked))

/-- A table without marks. -/
def Table.unmarked (t : Table ρ) : Table ρ :=
  ⟨t.locals.map Scope.unmarked, t.globals.unmarked⟩

namespace Scope

theorem find?_unmarked (s : Scope ρ) (x : String) :
    s.unmarked.find? x = (s.find? x).map Symbol.unmarked :=
  s.find?_mapSymbols x

/-- Marking shows in the marks only. -/
theorem unmarked_modify (s : Scope ρ) (x : String) (m : Option Bool) :
    (s.modify x (·.mark m)).unmarked = s.unmarked := by
  unfold unmarked modify
  rw [List.map_map]
  refine List.map_congr_left (fun entry _ => ?_)
  show ((if entry.1 = x then (entry.1, entry.2.mark m) else entry).1, _) = _
  by_cases hx : entry.1 = x
  · simp only [if_pos hx]
    rfl
  · simp only [if_neg hx]

end Scope

namespace Table

theorem unmarked_modifyFirst (x : String) (m : Option Bool) (scopes : List (Scope ρ)) :
    (modifyFirst x (·.mark m) scopes).map Scope.unmarked = scopes.map Scope.unmarked := by
  induction scopes with
  | nil => rfl
  | cons s outer ih =>
      unfold modifyFirst
      cases s.find? x with
      | some symbol => rw [List.map_cons, List.map_cons, Scope.unmarked_modify]
      | none => rw [List.map_cons, List.map_cons, ih]

/-- Marking changes nothing but a mark. -/
theorem unmarked_modify (t : Table ρ) (x : String) (m : Option Bool) :
    (t.modify x (·.mark m)).unmarked = t.unmarked := by
  unfold modify
  cases t.locals.findSome? (fun s => s.find? x) with
  | some symbol =>
      show Table.mk _ _ = Table.mk _ _
      rw [unmarked_modifyFirst]
  | none =>
      show Table.mk _ _ = Table.mk _ _
      rw [Scope.unmarked_modify]

/-- A mark can be set on declared names, and on no others. -/
theorem update_eq_ok {t t' : Table ρ} {x : String} {m : Option Bool} :
    t.update x m = .ok t' ↔ (t.lookup? x).isSome ∧ t' = t.modify x (·.mark m) := by
  unfold update
  cases t.lookup? x with
  | some symbol => simp [eq_comm]
  | none => simp

/-- An update changes nothing but a mark. -/
theorem unmarked_update {t t' : Table ρ} {x : String} {m : Option Bool}
    (h : t.update x m = .ok t') : t'.unmarked = t.unmarked := by
  obtain ⟨_, rfl⟩ := update_eq_ok.mp h
  exact unmarked_modify t x m

theorem unmarked_enter (t : Table ρ) : t.enter.unmarked = t.unmarked.enter := rfl

theorem unmarked_exit (t : Table ρ) : t.exit.unmarked = t.unmarked.exit := by
  obtain ⟨locals, globals⟩ := t
  cases locals <;> rfl

/-- A lookup in the table without marks finds the symbol without its mark. -/
theorem lookup?_unmarked (t : Table ρ) (x : String) :
    t.unmarked.lookup? x = (t.lookup? x).map Symbol.unmarked :=
  t.lookup?_mapSymbols x

/-! ## Roles -/

/-- What a name stands for. -/
def roleOf (t : Table ρ) (x : String) : Option ρ :=
  (t.lookup? x).map Symbol.role

/-- Roles do not depend on marks. -/
theorem roleOf_of_unmarked {t t' : Table ρ} (h : t'.unmarked = t.unmarked) : t'.roleOf = t.roleOf := by
  have hrole : ∀ (t : Table ρ) (x : String), t.roleOf x = (t.unmarked.lookup? x).map Symbol.role := by
    intro t x
    rw [lookup?_unmarked, Option.map_map]
    rfl
  funext x
  rw [hrole t', hrole t, h]

@[simp] theorem roleOf_enter (t : Table ρ) : t.enter.roleOf = t.roleOf := by
  funext x
  unfold roleOf
  rw [lookup?_enter]

/-! ## Declarations -/

theorem setInnermost_innermost (t : Table ρ) : t.setInnermost t.innermost = t := by
  obtain ⟨locals, globals⟩ := t
  cases locals <;> rfl

@[simp] theorem innermost_setInnermost (t : Table ρ) (s : Scope ρ) :
    (t.setInnermost s).innermost = s := by
  obtain ⟨locals, globals⟩ := t
  cases locals <;> rfl

@[simp] theorem setInnermost_setInnermost (t : Table ρ) (s s' : Scope ρ) :
    (t.setInnermost s).setInnermost s' = t.setInnermost s' := by
  obtain ⟨locals, globals⟩ := t
  cases locals <;> rfl

/-- A name is declared if it is new in the innermost scope, and is then the last there. -/
theorem declare_eq_ok {t t' : Table ρ} {x : String} {symbol : Symbol ρ} :
    t.declare x symbol = .ok t' ↔
      t.innermost.find? x = none ∧ t' = t.setInnermost (t.innermost.add x symbol) := by
  unfold declare lookupLocal?
  cases t.innermost.find? x with
  | some symbol' => simp
  | none => simp [eq_comm]

/-- The names of a scope that was opened hide those outside. -/
theorem roleOf_inner (t : Table ρ) (s : Scope ρ) (x : String) :
    (t.enter.setInnermost s).roleOf x = ((s.find? x).map Symbol.role).or (t.roleOf x) := by
  show (List.findSome? (fun s => Scope.find? s x) (s :: (t.locals ++ [t.globals]))).map _ = _
  rw [List.findSome?_cons]
  cases s.find? x <;> rfl

end Table

end TinyPascal
