import TinyPascal.Scope.Table

/-!
# `Proofs.Scope.Mapped` — tables with their symbols changed alike

Marks and places are parts of a symbol that most of a table's work does not look at. To leave such a part
out, one function is applied to all symbols of a table. Names keep their places, so **every request to the
table goes on as before**, up to that function.

## Contents
- **Scopes.** `Scope.mapSymbols`, `find?_mapSymbols`.
- **Tables.** `Table.mapSymbols`, with `lookup?_mapSymbols` for lookups and `declare_mapSymbols`,
  `update_mapSymbols` for changes.
-/

namespace TinyPascal

variable {ρ : Type} {f g : Symbol ρ → Symbol ρ}

/-! ## Scopes -/

namespace Scope

/-- The scope with `f` applied to its symbols. -/
def mapSymbols (f : Symbol ρ → Symbol ρ) (s : Scope ρ) : Scope ρ :=
  s.map (fun entry => (entry.1, f entry.2))

/-- A lookup finds the mapped symbol. -/
theorem find?_mapSymbols (s : Scope ρ) (x : String) :
    (s.mapSymbols f).find? x = (s.find? x).map f := by
  unfold find?
  induction s with
  | nil => rfl
  | cons entry s ih =>
      obtain ⟨y, symbol⟩ := entry
      show List.lookup x ((y, f symbol) :: mapSymbols f s) = _
      rw [List.lookup_cons, List.lookup_cons, ih]
      cases x == y <;> rfl

theorem add_mapSymbols (s : Scope ρ) (x : String) (symbol : Symbol ρ) :
    (s.mapSymbols f).add x (f symbol) = (s.add x symbol).mapSymbols f := by
  unfold add mapSymbols
  rw [List.map_append]
  rfl

/-- Changing a mapped symbol maps the changed one, if the two changes commute. -/
theorem modify_mapSymbols (h : ∀ symbol, g (f symbol) = f (g symbol)) (s : Scope ρ) (x : String) :
    (s.mapSymbols f).modify x g = (s.modify x g).mapSymbols f := by
  unfold modify mapSymbols
  rw [List.map_map, List.map_map]
  refine List.map_congr_left (fun entry _ => ?_)
  show (if entry.1 = x then (entry.1, g (f entry.2)) else (entry.1, f entry.2)) = _
  by_cases hx : entry.1 = x
  · simp only [Function.comp_apply, if_pos hx, h]
  · simp only [Function.comp_apply, if_neg hx]

end Scope

/-! ## Tables -/

namespace Table

/-- The table with `f` applied to its symbols. -/
def mapSymbols (f : Symbol ρ → Symbol ρ) (t : Table ρ) : Table ρ :=
  ⟨t.locals.map (Scope.mapSymbols f), t.globals.mapSymbols f⟩

theorem mapSymbols_enter (t : Table ρ) : (t.mapSymbols f).enter = t.enter.mapSymbols f := rfl

theorem mapSymbols_exit (t : Table ρ) : (t.mapSymbols f).exit = t.exit.mapSymbols f := by
  obtain ⟨locals, globals⟩ := t
  cases locals <;> rfl

theorem innermost_mapSymbols (t : Table ρ) :
    (t.mapSymbols f).innermost = t.innermost.mapSymbols f := by
  obtain ⟨locals, globals⟩ := t
  cases locals <;> rfl

theorem setInnermost_mapSymbols (t : Table ρ) (s : Scope ρ) :
    (t.mapSymbols f).setInnermost (s.mapSymbols f) = (t.setInnermost s).mapSymbols f := by
  obtain ⟨locals, globals⟩ := t
  cases locals <;> rfl

theorem findSome?_mapSymbols (scopes : List (Scope ρ)) (x : String) :
    (scopes.map (Scope.mapSymbols f)).findSome? (fun s => s.find? x) =
      (scopes.findSome? (fun s => s.find? x)).map f := by
  rw [List.findSome?_map, List.map_findSome?]
  congr 1
  funext s
  exact s.find?_mapSymbols x

/-- **A name is found as before.** -/
theorem lookup?_mapSymbols (t : Table ρ) (x : String) :
    (t.mapSymbols f).lookup? x = (t.lookup? x).map f := by
  have hscopes : (t.mapSymbols f).scopes = t.scopes.map (Scope.mapSymbols f) := by
    unfold scopes mapSymbols
    rw [List.map_append]
    rfl
  unfold lookup?
  rw [hscopes, findSome?_mapSymbols]

/-- **A name is declared as before.** -/
theorem declare_mapSymbols (t : Table ρ) (x : String) (symbol : Symbol ρ) :
    (t.mapSymbols f).declare x (f symbol) = (t.declare x symbol).map (mapSymbols f) := by
  unfold declare lookupLocal?
  rw [innermost_mapSymbols, Scope.find?_mapSymbols, Scope.add_mapSymbols, setInnermost_mapSymbols]
  cases t.innermost.find? x <;> rfl

theorem modifyFirst_mapSymbols (h : ∀ symbol, g (f symbol) = f (g symbol)) (scopes : List (Scope ρ))
    (x : String) :
    modifyFirst x g (scopes.map (Scope.mapSymbols f)) =
      (modifyFirst x g scopes).map (Scope.mapSymbols f) := by
  induction scopes with
  | nil => rfl
  | cons s outer ih =>
      rw [List.map_cons, modifyFirst, modifyFirst, Scope.find?_mapSymbols]
      cases s.find? x with
      | some symbol =>
          rw [Scope.modify_mapSymbols h]
          rfl
      | none =>
          rw [ih]
          rfl

theorem modify_mapSymbols (h : ∀ symbol, g (f symbol) = f (g symbol)) (t : Table ρ) (x : String) :
    (t.mapSymbols f).modify x g = (t.modify x g).mapSymbols f := by
  have hlocals : (t.mapSymbols f).locals = t.locals.map (Scope.mapSymbols f) := rfl
  have hglobals : (t.mapSymbols f).globals = t.globals.mapSymbols f := rfl
  unfold modify
  rw [hlocals, hglobals, findSome?_mapSymbols, modifyFirst_mapSymbols h, Scope.modify_mapSymbols h]
  cases t.locals.findSome? (fun s => s.find? x) <;> rfl

/-- **A mark is set as before**, if `f` lets the marks through. -/
theorem update_mapSymbols {m : Option Bool} (h : ∀ symbol, (f symbol).mark m = f (symbol.mark m))
    (t : Table ρ) (x : String) :
    (t.mapSymbols f).update x m = (t.update x m).map (mapSymbols f) := by
  unfold update
  rw [lookup?_mapSymbols, modify_mapSymbols (g := (·.mark m)) h]
  cases t.lookup? x <;> rfl

end Table

end TinyPascal
