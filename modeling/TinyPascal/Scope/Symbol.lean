import TinyPascal.Tree.Basic

/-!
# `Scope.Symbol` — what a name stands for

A name stands for a variable, a parameter or a routine. A symbol also records where the name was
declared and whether a value was ever assigned to it.
-/

namespace TinyPascal

/-- The types of a routine: of its parameters in order, and of its result if it is a function. -/
structure Signature where
  params : List Ty
  result : Option Ty
deriving DecidableEq, Repr

/-- The signature of a declared routine. -/
def Routine.signature (r : Routine) : Signature :=
  ⟨(Param.flatten r.params).map Prod.snd, r.result⟩

/-- What a name stands for. -/
inductive Role where
  | var (ty : Ty)
  | param (ty : Ty)
  | routine (signature : Signature)
deriving DecidableEq, Repr

/-- A declared name: what it stands for, whether it was assigned to, and where it was declared. What a name
    can stand for is left open, since no table looks at it. -/
structure Symbol (ρ : Type := Role) where
  role : ρ
  assigned : Bool
  span : Span
deriving DecidableEq, Repr

namespace Symbol

/-- A variable starts without a value. -/
def var (ty : Ty) (span : Span) : Symbol :=
  ⟨.var ty, false, span⟩

/-- A parameter arrives with a value. -/
def param (ty : Ty) (span : Span) : Symbol :=
  ⟨.param ty, true, span⟩

def routine (signature : Signature) (span : Span) : Symbol :=
  ⟨.routine signature, false, span⟩

/-- The type of the value that a variable or parameter holds. -/
def storage? (s : Symbol) : Option Ty :=
  match s.role with
  | .var ty | .param ty => some ty
  | .routine _ => none

/-- The signature of a routine. -/
def signature? (s : Symbol) : Option Signature :=
  match s.role with
  | .var _ | .param _ => none
  | .routine signature => some signature

/-- The type that belongs to the name: of its value, or of its result. A procedure has none. -/
def ty? (s : Symbol) : Option Ty :=
  match s.role with
  | .var ty | .param ty => some ty
  | .routine signature => signature.result

/-- The parameter types of a routine; a variable or parameter has none. -/
def params (s : Symbol) : List Ty :=
  match s.role with
  | .var _ | .param _ => []
  | .routine signature => signature.params

/-- Set the assignment mark, or leave it as it is. -/
def mark {ρ : Type} (assigned : Option Bool) (s : Symbol ρ) : Symbol ρ :=
  { s with assigned := assigned.getD s.assigned }

end Symbol

end TinyPascal
