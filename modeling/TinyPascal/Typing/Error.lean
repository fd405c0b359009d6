import TinyPascal.Tree.Basic

/-!
# `Typing.Error` — violations of the rules for names and types

A semantic error is the rule that is violated and the place; the place plays no part in its wording.
-/

namespace TinyPascal

/-- The rule that a program violates. -/
inductive Violation where
  | undeclared (name : String)
  | redeclared (name : String)
  | typeMismatch (context : String) (expected found : Ty)
  | arityMismatch (name : String) (expected found : Nat)
  | notAVariable (name : String)
  | notCallable (name : String)
  | noValue (name : String)
  | outsideLoop (keyword : String)
  | returnOutsideRoutine
  | unexpectedReturnValue (name : String)
  | missingReturnValue (name : String) (expected : Ty)
deriving DecidableEq, Repr

/-- The violation in one line. -/
def Violation.message : Violation → String
  | .undeclared name => s!"undeclared identifier '{name}'"
  | .redeclared name => s!"'{name}' is already declared in this scope"
  | .typeMismatch context expected found =>
    s!"type mismatch in {context}: expected {expected.name}, found {found.name}"
  | .arityMismatch name expected found =>
    s!"'{name}' expects {expected} argument(s), but {found} were given"
  | .notAVariable name => s!"'{name}' is not a variable"
  | .notCallable name => s!"'{name}' is not a procedure or function"
  | .noValue name => s!"procedure '{name}' does not produce a value"
  | .outsideLoop keyword => s!"'{keyword}' outside of a while loop"
  | .returnOutsideRoutine => "'return' outside of a procedure or function"
  | .unexpectedReturnValue name => s!"procedure '{name}' cannot return a value"
  | .missingReturnValue name expected =>
    s!"function '{name}' must return a value of type {expected.name}"

/-- A violated rule, and the place where it shows. -/
structure SemanticError where
  violation : Violation
  span : Span
deriving DecidableEq, Repr

end TinyPascal
