import TinyPascal.Typing.Expr

/-!
# `Typing.Program` — checking statements and programs

Checking walks over the tree from top to bottom and stops at the first violation. The table of names is
the only thing that it changes: scopes are opened and closed again, whether or not a violation is met,
and a name that is assigned to is marked.

## Contents
- **Checks.** `Check` is a step that changes the table and may fail; `inScope` runs one in a scope of its
  own.
- **Statements.** `Stmt.check` in a `Context`: the routine around it, and the number of loops.
- **Programs.** `Program.check` declares all global names first, so that routines may call each other in
  any order; then come the bodies of the routines, and the main block last.
-/

namespace TinyPascal

/-! ## Checks -/

/-- The violation that a refusal of the table amounts to. -/
def SymbolError.violation : SymbolError → Violation
  | .alreadyDeclared name => .redeclared name
  | .notFound name => .undeclared name

/-- A step that changes the table and may meet a violation. -/
abbrev Check := EStateM SemanticError Table Unit

namespace Check

/-- Something that only looks at the table. -/
def ofTable {α : Type} (f : Table → Except SemanticError α) : EStateM SemanticError Table α :=
  fun t =>
    match f t with
    | .ok a => .ok a t
    | .error e => .error e t

/-- Run a check in a scope of its own. -/
def inScope (check : Check) : Check :=
  fun t =>
    match check t.enter with
    | .ok () t' => .ok () t'.exit
    | .error e t' => .error e t'.exit

/-- Change the table; a refusal is a violation at `span`. -/
def change (span : Span) (f : Table → Except SymbolError Table) : Check :=
  fun t =>
    match f t with
    | .ok t' => .ok () t'
    | .error e => .error ⟨e.violation, span⟩ t

/-- Declare a name in the innermost scope. -/
def declare (name : Ident) (symbol : Symbol) : Check :=
  change name.span (·.declare name.name symbol)

/-- Mark a name as assigned to. -/
def markAssigned (name : Ident) : Check :=
  change name.span (·.update name.name (some true))

end Check

/-! ## Statements -/

/-- What surrounds a statement. -/
structure Context where
  /-- The name and the result type of the routine around it; none in the main block. -/
  routine : Option (String × Option Ty) := none
  /-- The number of loops around it, at most the depth of the tree. -/
  loops : Nat := 0

/-- A condition is boolean. -/
def checkCondition (context : String) (cond : Expr) (t : Table) : Except SemanticError Unit := do
  let ty ← cond.type t
  expectType context .boolean ty cond.span

/-- The value given back is the one that the routine around it asks for. -/
def checkReturn (ctx : Context) (value : Option Expr) (span : Span) (t : Table) :
    Except SemanticError Unit :=
  match ctx.routine with
  | none => .error ⟨.returnOutsideRoutine, span⟩
  | some (name, result) =>
    match result, value with
    | some expected, some e => do
      let found ← e.type t
      expectType s!"return from '{name}'" expected found e.span
    | some expected, none => .error ⟨.missingReturnValue name expected, span⟩
    | none, some e => .error ⟨.unexpectedReturnValue name, e.span⟩
    | none, none => .ok ()

/-- A jump out of a loop has a loop around it. -/
def checkInLoop (ctx : Context) (keyword : String) (span : Span) : Except SemanticError Unit :=
  if ctx.loops = 0 then .error ⟨.outsideLoop keyword, span⟩ else .ok ()

/-- An assigned value has the type of its target. -/
def checkAssign (target : Ident) (value : Expr) (t : Table) : Except SemanticError Unit := do
  let expected ← t.storageType target.name target.span
  let found ← value.type t
  expectType s!"assignment to '{target.name}'" expected found value.span

mutual

def Stmt.check (ctx : Context) : Stmt → Check
  | .assign target value _ => do
    Check.ofTable (checkAssign target value)
    Check.markAssigned target
  | .call callee args span => discard <| Check.ofTable (callResult · callee args span)
  | .return value span => Check.ofTable (checkReturn ctx value span)
  | .ifThen cond yes _ => do
    Check.ofTable (checkCondition "if condition" cond)
    yes.check ctx
  | .ifElse cond yes no _ => do
    Check.ofTable (checkCondition "if condition" cond)
    yes.check ctx
    no.check ctx
  | .while cond body _ => do
    Check.ofTable (checkCondition "while condition" cond)
    body.check { ctx with loops := ctx.loops + 1 }
  | .break span => Check.ofTable (fun _ => checkInLoop ctx "break" span)
  | .continue span => Check.ofTable (fun _ => checkInLoop ctx "continue" span)
  | .write args _ => Check.ofTable (checkValues · args)

/-- A block is checked in a scope of its own. -/
def Block.check (ctx : Context) : Block → Check
  | ⟨statements, _⟩ => Check.inScope (checkAll ctx statements)

/-- Statements are checked in order. -/
def checkAll (ctx : Context) : List Stmt → Check
  | [] => pure ()
  | s :: more => do
    s.check ctx
    checkAll ctx more

end

/-! ## Programs -/

/-- Declare variables of one type. -/
def declareVars (ty : Ty) : List Ident → Check
  | [] => pure ()
  | name :: more => do
    Check.declare name (.var ty name.span)
    declareVars ty more

/-- Declare single parameters. -/
def declareParams : List (Ident × Ty) → Check
  | [] => pure ()
  | (name, ty) :: more => do
    Check.declare name (.param ty name.span)
    declareParams more

/-- Declare global names in order. -/
def declareGlobals : List Decl → Check
  | [] => pure ()
  | .vars decl :: more => do
    declareVars decl.ty decl.names
    declareGlobals more
  | .routine r :: more => do
    Check.declare r.name (.routine r.signature r.name.span)
    declareGlobals more

/-- The body of a routine is checked in the scope of its parameters. -/
def Routine.check (r : Routine) : Check :=
  Check.inScope do
    declareParams (Param.flatten r.params)
    checkAll { routine := some (r.name.name, r.result) } r.body.statements

/-- The bodies of the routines are checked in order. -/
def checkRoutines : List Decl → Check
  | [] => pure ()
  | .vars _ :: more => checkRoutines more
  | .routine r :: more => do
    r.check
    checkRoutines more

namespace Program

/-- All checks of a program, from an open table. -/
def checks (p : Program) : Check := do
  declareGlobals p.declarations
  checkRoutines p.declarations
  p.main.check {}

/-- The table of global names of a program that keeps all rules, or the first violation. -/
def check (p : Program) : Except SemanticError Table :=
  match p.checks {} with
  | .ok () t => .ok t
  | .error e _ => .error e

end Program

end TinyPascal
