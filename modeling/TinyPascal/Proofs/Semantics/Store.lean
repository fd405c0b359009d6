import TinyPascal.Code.Instr

/-!
# `Proofs.Semantics.Store` — values, and the names that hold them

What the tree and the code of a program have in common when they are run: the meaning of literals and
operators, the global variables with the values printed so far, and the names that belong to one
activation of a routine.

## Contents
- **Meanings.** A `Meaning` interprets literals and operators in any type of values. Operators may be
  undefined; a run that applies one where it is undefined does not end normally.
- **Worlds.** A `World` is what all activations share: the globals, and the output.
- **Activations.** An `Activation` says which names an activation owns, and what they hold. Any other name is a
  global (`Activation.read`, `Activation.set`, `World.set`). A name may hold no value.
-/

namespace TinyPascal

/-! ## Meanings -/

/-- What literals and operators mean. Nothing is assumed of the values. -/
structure Meaning (V : Type) where
  literal : Literal → V
  binary : BinOp → V → V → Option V
  negate : V → Option V
  /-- Whether a value counts as true, where it is tested. -/
  truth : V → Option Bool

/-- Values as they are stored: numbers, with 1 and 0 for the booleans. The operators on two operands are
    left open. -/
def Meaning.numbers (binary : BinOp → Int → Int → Option Int) : Meaning Int where
  literal := Literal.value
  binary := binary
  negate v := some (if v = 0 then 1 else 0)
  truth v := some (decide (v ≠ 0))

/-! ## Environments -/

/-- What names hold; a name may hold nothing. -/
abbrev Env (V : Type) := String → Option V

namespace Env

variable {V : Type}

/-- Let `x` hold `r`. -/
def set (ρ : Env V) (x : String) (r : Option V) : Env V :=
  fun y => if y = x then r else ρ y

@[simp] theorem set_self (ρ : Env V) (x : String) (r : Option V) : ρ.set x r x = r := by
  simp [set]

/-- Setting a name leaves the others as they are. -/
theorem set_ne (ρ : Env V) {x y : String} (r : Option V) (h : y ≠ x) : ρ.set x r y = ρ y := by
  simp [set, h]

/-- Parameters hold the arguments. -/
def ofArgs (names : List String) (args : List V) : Env V :=
  fun x => (names.zip args).lookup x

end Env

/-! ## Worlds and activations -/

/-- What all activations share: the global variables, and the values printed so far. -/
structure World (V : Type) where
  globals : Env V
  printed : List V

/-- Print one value. -/
def World.print {V : Type} (w : World V) (v : V) : World V :=
  { w with printed := w.printed ++ [v] }

/-- The names that one activation owns, and what they hold. -/
structure Activation (V : Type) where
  owns : String → Bool
  slots : Env V

namespace Activation

variable {V : Type}

/-- What a name holds, seen from an activation. -/
def read (σ : Activation V) (w : World V) (x : String) : Option V :=
  if σ.owns x then σ.slots x else w.globals x

/-- The activation after `x` was set. -/
def set (σ : Activation V) (x : String) (r : Option V) : Activation V :=
  if σ.owns x then { σ with slots := σ.slots.set x r } else σ

/-- The activation of a routine with the given parameters. -/
def ofArgs (names : List String) (args : List V) : Activation V where
  owns x := names.contains x
  slots := .ofArgs names args

end Activation

/-- The world after an activation set `x`. -/
def World.set {V : Type} (w : World V) (σ : Activation V) (x : String) (r : Option V) : World V :=
  if σ.owns x then w else { w with globals := w.globals.set x r }

end TinyPascal
