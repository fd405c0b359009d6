import TinyPascal.Scope.Symbol

/-!
# `Scope.Table` — nested scopes of declared names

## Contents
- **Scopes.** A `Scope` lists its names in the order of their declaration; a name is declared at most
  once in a scope.
- **Tables.** A `Table` is the global scope and the scopes opened inside it. Names are declared in the
  innermost scope and looked up from the innermost scope outwards. The global scope is never left.

Nothing here looks at what a name stands for: scopes and tables are those of symbols of any kind `ρ`.
-/

namespace TinyPascal

variable {ρ : Type}

/-! ## Scopes -/

/-- The names of one scope, in the order of declaration. -/
abbrev Scope (ρ : Type := Role) := List (String × Symbol ρ)

namespace Scope

def find? (s : Scope ρ) (name : String) : Option (Symbol ρ) :=
  s.lookup name

/-- Declare a new name, after all others. -/
def add (s : Scope ρ) (name : String) (symbol : Symbol ρ) : Scope ρ :=
  s ++ [(name, symbol)]

/-- Change the symbol of a name and keep its place. -/
def modify (s : Scope ρ) (name : String) (f : Symbol ρ → Symbol ρ) : Scope ρ :=
  s.map (fun entry => if entry.1 = name then (entry.1, f entry.2) else entry)

end Scope

/-! ## Tables -/

/-- The ways in which a table refuses a request. -/
inductive SymbolError where
  | alreadyDeclared (name : String)
  | notFound (name : String)
deriving DecidableEq, Repr

def SymbolError.message : SymbolError → String
  | .alreadyDeclared name => s!"symbol '{name}' is already declared in this scope"
  | .notFound name => s!"symbol '{name}' not found"

/-- The scopes that are open: those inside the global scope, the innermost first, and the global one. -/
structure Table (ρ : Type := Role) where
  locals : List (Scope ρ) := []
  globals : Scope ρ := []
deriving Repr

namespace Table

/-- The number of open scopes. -/
def depth (t : Table ρ) : Nat :=
  t.locals.length + 1

/-- All open scopes, the innermost first. -/
def scopes (t : Table ρ) : List (Scope ρ) :=
  t.locals ++ [t.globals]

/-- The innermost scope. -/
def innermost (t : Table ρ) : Scope ρ :=
  t.locals.headD t.globals

/-- Open a scope. -/
def enter (t : Table ρ) : Table ρ :=
  { t with locals := [] :: t.locals }

/-- Close the innermost scope; the global scope cannot be closed. -/
def exit? (t : Table ρ) : Option (Table ρ) :=
  match t.locals with
  | [] => none
  | _ :: outer => some { t with locals := outer }

/-- Close the innermost scope, or stay in the global one. -/
def exit (t : Table ρ) : Table ρ :=
  t.exit?.getD t

/-- The nearest symbol of a name. -/
def lookup? (t : Table ρ) (name : String) : Option (Symbol ρ) :=
  t.scopes.findSome? (fun s => s.find? name)

/-- The symbol of a name in the innermost scope. -/
def lookupLocal? (t : Table ρ) (name : String) : Option (Symbol ρ) :=
  t.innermost.find? name

/-- Replace the innermost scope. -/
def setInnermost (t : Table ρ) (s : Scope ρ) : Table ρ :=
  match t.locals with
  | [] => { t with globals := s }
  | _ :: outer => { t with locals := s :: outer }

/-- Declare a name in the innermost scope, where it must be new. -/
def declare (t : Table ρ) (name : String) (symbol : Symbol ρ) : Except SymbolError (Table ρ) :=
  match t.lookupLocal? name with
  | some _ => .error (.alreadyDeclared name)
  | none => .ok (t.setInnermost (t.innermost.add name symbol))

/-- Change the symbol of a name in the first scope that declares it. -/
def modifyFirst (name : String) (f : Symbol ρ → Symbol ρ) : List (Scope ρ) → List (Scope ρ)
  | [] => []
  | s :: outer =>
    match s.find? name with
    | some _ => s.modify name f :: outer
    | none => s :: modifyFirst name f outer

/-- Change the nearest symbol of a name; a name without one changes nothing. -/
def modify (t : Table ρ) (name : String) (f : Symbol ρ → Symbol ρ) : Table ρ :=
  match t.locals.findSome? (fun s => s.find? name) with
  | some _ => { t with locals := modifyFirst name f t.locals }
  | none => { t with globals := t.globals.modify name f }

/-- Set the assignment mark of the nearest symbol of a name, or leave it as it is. -/
def update (t : Table ρ) (name : String) (assigned : Option Bool) : Except SymbolError (Table ρ) :=
  match t.lookup? name with
  | some _ => .ok (t.modify name (·.mark assigned))
  | none => .error (.notFound name)

/-! ## Opening and closing scopes -/

theorem depth_pos (t : Table ρ) : 0 < t.depth :=
  Nat.succ_pos _

@[simp] theorem depth_enter (t : Table ρ) : t.enter.depth = t.depth + 1 := rfl

@[simp] theorem exit_enter (t : Table ρ) : t.enter.exit = t := rfl

/-- A new scope hides nothing. -/
@[simp] theorem lookup?_enter (t : Table ρ) (name : String) :
    t.enter.lookup? name = t.lookup? name := by
  show List.findSome? (fun s => Scope.find? s name) ([] :: (t.locals ++ [t.globals])) = _
  rw [List.findSome?_cons]
  rfl

end Table

end TinyPascal
