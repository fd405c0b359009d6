import TinyPascal.Proofs.Typing.Statements

/-!
# `Proofs.Typing.Analyzer` — checking with an analyzer that is saved and restored by hand

`Stmt.check` is told what surrounds a statement, and its scopes close by themselves. An analyzer keeps the
routine and the number of loops beside the table of names, sets them in front of a body and sets them back
behind it. It stops with a broken assertion if it leaves more scopes or loops than it entered. This module
writes the analyzer down and shows that **the two agree**: what was set is set back on either way out, and
no assertion breaks.

## Contents
- **Steps.** `Analyzer`, `Analysis`; `Analysis.andUndo` runs a step that sets something back.
- **Expressions.** `Expr.infer`, `inferCall`.
- **Statements.** `Stmt.analyze`, `Program.analyze`.
- **Agreement.** `Agrees ctx x y`: inside `ctx`, the analysis `y` does what `x` does to the table.
  `Agrees.inScope`, `Agrees.inLoop`, `Agrees.inRoutine` for what is set and set back; `agrees_infer`,
  `agrees_analyze`, `agrees_analyze_program`.
-/

namespace TinyPascal

/-! ## Steps -/

/-- The names in scope, the routine whose body is checked, and the number of loops around. -/
structure Analyzer where
  symbols : Table := {}
  routine : Option (String × Option Ty) := none
  /-- A number without a bound, where a machine counts in one word. No run comes near the end of that word:
      one loop is counted for each `while` around the statement, so the count is at most the depth of the
      tree, and a tree as deep as a word is large does not fit into the memory that a word addresses. -/
  loops : Nat := 0

/-- Why an analysis stops. -/
inductive Stop where
  | violation (e : SemanticError)
  /-- A scope is left and only the global one is open. -/
  | noScope
  /-- A loop is left and there is none. -/
  | noLoop
deriving DecidableEq, Repr

/-- A step of an analyzer. -/
abbrev Analysis := EStateM Stop Analyzer

namespace Analysis

variable {α : Type}

/-- A step that acts on the table alone. -/
def onTable (x : EStateM SemanticError Table α) : Analysis α :=
  fun s => seenThrough .violation (fun t => { s with symbols := t }) (x s.symbols)

/-- A step that only looks at the table. -/
def look (f : Table → Except SemanticError α) : Analysis α :=
  onTable (Check.ofTable f)

def enterScope : Analysis Unit :=
  fun s => .ok () { s with symbols := s.symbols.enter }

/-- Leave the innermost scope, which must not be the global one. -/
def exitScope : Analysis Unit :=
  fun s =>
    match s.symbols.exit? with
    | some t => .ok () { s with symbols := t }
    | none => .error .noScope s

def enterLoop : Analysis Unit :=
  fun s => .ok () { s with loops := s.loops + 1 }

/-- Count one loop less; the count must not be zero. -/
def exitLoop : Analysis Unit :=
  fun s =>
    match s.loops with
    | n + 1 => .ok () { s with loops := n }
    | 0 => .error .noLoop s

def setRoutine (routine : Option (String × Option Ty)) : Analysis Unit :=
  fun s => .ok () { s with routine := routine }

/-- Run `body`, keep its result, run `undo` also behind a violation, and give the result that was kept. A
    broken assertion ends everything. -/
def andUndo (body : Analysis α) (undo : Analysis Unit) : Analysis α :=
  fun s =>
    match body s with
    | .ok a s₁ => (undo >>= fun _ => pure a) s₁
    | .error (.violation e) s₁ => (undo >>= fun _ => throw (.violation e)) s₁
    | .error stop s₁ => .error stop s₁

end Analysis

/-! ## Expressions -/

open Analysis

/-- A call, given what is done with its arguments once the parameter types are known. -/
def inferCallWith (callee : Ident) (count : Nat) (span : Span) (args : List Ty → Analysis Unit) :
    Analysis (Option Ty) := do
  let signature ← look (·.signatureFor callee count span)
  args signature.params
  return signature.result

mutual

/-- The type of an expression. -/
def Expr.infer : Expr → Analysis Ty
  | .int _ _ => pure .integer
  | .bool _ _ => pure .boolean
  | .var name span => look (·.storageType name span)
  | .paren inner _ => inner.infer
  | .not operand _ => do
    let ty ← operand.infer
    look fun _ => expectType "operand of 'not'" .boolean ty operand.span
    return .boolean
  | .binary op left right _ => do
    let leftTy ← left.infer
    let rightTy ← right.infer
    look fun _ => op.resultType leftTy rightTy left.span right.span
  | .call callee args span => do
    let result ← inferCallWith callee args.length span (fun params => inferArgs callee.name 1 params args)
    match result with
    | some ty => return ty
    | none => throw (.violation ⟨.noValue callee.name, span⟩)

/-- Arguments have the types of the parameters; `number` counts the first of them. -/
def inferArgs (callee : String) (number : Nat) : List Ty → List Expr → Analysis Unit
  | expected :: params, arg :: args => do
    let found ← arg.infer
    look fun _ => expectType s!"argument {number} of '{callee}'" expected found arg.span
    inferArgs callee (number + 1) params args
  | _, _ => pure ()

end

/-- The result type of a call, none for a procedure. -/
def inferCall (callee : Ident) (args : List Expr) (span : Span) : Analysis (Option Ty) :=
  inferCallWith callee args.length span (fun params => inferArgs callee.name 1 params args)

/-- Every expression has a type. -/
def inferAll : List Expr → Analysis Unit
  | [] => pure ()
  | e :: es => do
    discard <| e.infer
    inferAll es

/-! ## Statements -/

def analyzeCondition (context : String) (cond : Expr) : Analysis Unit := do
  let ty ← cond.infer
  look fun _ => expectType context .boolean ty cond.span

def analyzeReturn (value : Option Expr) (span : Span) : Analysis Unit := do
  match (← get).routine with
  | none => throw (.violation ⟨.returnOutsideRoutine, span⟩)
  | some (name, result) =>
    match result, value with
    | some expected, some e => do
      let found ← e.infer
      look fun _ => expectType s!"return from '{name}'" expected found e.span
    | some expected, none => throw (.violation ⟨.missingReturnValue name expected, span⟩)
    | none, some e => throw (.violation ⟨.unexpectedReturnValue name, e.span⟩)
    | none, none => pure ()

def analyzeInLoop (keyword : String) (span : Span) : Analysis Unit := do
  if (← get).loops = 0 then throw (.violation ⟨.outsideLoop keyword, span⟩) else pure ()

def analyzeAssign (target : Ident) (value : Expr) : Analysis Unit := do
  let expected ← look (·.storageType target.name target.span)
  let found ← value.infer
  look fun _ => expectType s!"assignment to '{target.name}'" expected found value.span

mutual

def Stmt.analyze : Stmt → Analysis Unit
  | .assign target value _ => do
    analyzeAssign target value
    onTable (Check.markAssigned target)
  | .call callee args span => discard <| inferCall callee args span
  | .return value span => analyzeReturn value span
  | .ifThen cond yes _ => do
    analyzeCondition "if condition" cond
    yes.analyze
  | .ifElse cond yes no _ => do
    analyzeCondition "if condition" cond
    yes.analyze
    no.analyze
  | .while cond body _ => do
    analyzeCondition "while condition" cond
    enterLoop
    body.analyze.andUndo exitLoop
  | .break span => analyzeInLoop "break" span
  | .continue span => analyzeInLoop "continue" span
  | .write args _ => inferAll args

/-- A block has a scope of its own. -/
def Block.analyze : Block → Analysis Unit
  | ⟨statements, _⟩ => do
    enterScope
    (analyzeAll statements).andUndo exitScope

def analyzeAll : List Stmt → Analysis Unit
  | [] => pure ()
  | s :: more => do
    s.analyze
    analyzeAll more

end

/-- The body of a routine, in the scope of its parameters. -/
def Routine.analyze (r : Routine) : Analysis Unit := do
  setRoutine (some (r.name.name, r.result))
  let body : Analysis Unit := do
    onTable (declareParams (Param.flatten r.params))
    analyzeAll r.body.statements
  let inScope : Analysis Unit := do
    enterScope
    body.andUndo exitScope
  inScope.andUndo (setRoutine none)

def analyzeRoutines : List Decl → Analysis Unit
  | [] => pure ()
  | .vars _ :: more => analyzeRoutines more
  | .routine r :: more => do
    r.analyze
    analyzeRoutines more

/-- All global names, then the bodies of the routines, then the main block. -/
def Program.analyze (p : Program) : Analysis Unit := do
  onTable (declareGlobals p.declarations)
  analyzeRoutines p.declarations
  p.main.analyze

/-! ## Agreement -/

/-- The analyzer with the table `t` inside `ctx`. -/
def Context.analyzer (ctx : Context) (t : Table) : Analyzer :=
  ⟨t, ctx.routine, ctx.loops⟩

/-- **Doing the same to the table.** Inside `ctx`, the analysis `y` gives what `x` gives, also where it
    fails: it stops with the same violation and no other way. The routine and the number of loops are
    those of `ctx` again. -/
abbrev Agrees {α : Type} (ctx : Context) (x : EStateM SemanticError Table α) (y : Analysis α) : Prop :=
  Simulates Stop.violation ctx.analyzer x y

/-! ### Open scopes -/

/-- A check that leaves as many scopes open as it found open, also where it fails. -/
abbrev Check.KeepsDepth {α : Type} (check : EStateM SemanticError Table α) : Prop :=
  Check.Within (fun t t' => t'.depth = t.depth) check

/-- A scope can be left if one is open inside the global one. -/
theorem Table.exit?_eq_some {t : Table} (h : 1 < t.depth) :
    t.exit? = some t.exit ∧ t.exit.depth + 1 = t.depth := by
  obtain ⟨locals, globals⟩ := t
  cases locals with
  | nil => exact absurd h (Nat.lt_irrefl 1)
  | cons s outer => exact ⟨rfl, rfl⟩

/-- No check leaves a scope open or closes one that it did not open. -/
theorem Check.frame_depth : Check.Frame (fun t t' => t'.depth = t.depth) where
  refl _ := rfl
  trans h h' := h'.trans h
  inScope := by
    intro t t' h
    rw [Table.depth_enter] at h
    have hpos := t.depth_pos
    obtain ⟨_, hexit⟩ := Table.exit?_eq_some (t := t') (by omega)
    omega
  assign := by
    intro _ _ t t' _ h
    have hlocals := congrArg (fun t : Table => t.locals.length) (Table.unmarked_update h)
    simp only [Table.unmarked, List.length_map] at hlocals
    unfold Table.depth
    rw [hlocals]

theorem Table.depth_declare {x : String} {symbol : Symbol} {t t' : Table}
    (h : t.declare x symbol = .ok t') : t'.depth = t.depth := by
  obtain ⟨_, rfl⟩ := Table.declare_eq_ok.mp h
  obtain ⟨locals, globals⟩ := t
  cases locals <;> rfl

/-! ### Steps -/

namespace Agrees

variable {α β : Type} {ctx : Context} {x : EStateM SemanticError Table α} {y : Analysis α}

theorem onTable (x : EStateM SemanticError Table α) : Agrees ctx x (Analysis.onTable x) :=
  fun _ => rfl

theorem look (f : Table → Except SemanticError α) : Agrees ctx (Check.ofTable f) (Analysis.look f) :=
  onTable _

theorem ok (a : α) : Agrees ctx (Check.ofTable fun _ => .ok a) (pure a) :=
  fun _ => rfl

theorem error (e : SemanticError) :
    Agrees ctx (Check.ofTable fun _ => (.error e : Except SemanticError α)) (throw (.violation e)) :=
  fun _ => rfl

/-- Something that looks at the table twice. -/
theorem look_bind {f : Table → Except SemanticError α} {g : α → Table → Except SemanticError β}
    {z : α → Analysis β} (hy : Agrees ctx (Check.ofTable f) y)
    (hz : ∀ a, Agrees ctx (Check.ofTable (g a)) (z a)) :
    Agrees ctx (Check.ofTable fun t => f t >>= fun a => g a t) (y >>= z) := by
  have hbind : Check.ofTable (fun t => f t >>= fun a => g a t) =
      (Check.ofTable f >>= fun a => Check.ofTable (g a)) := by
    funext t
    show _ = EStateM.bind _ _ t
    unfold Check.ofTable EStateM.bind
    cases h : f t with
    | ok a =>
        simp only [h]
        rfl
    | error e =>
        simp only [h]
        rfl
  rw [hbind]
  exact Simulates.bind hy hz

/-- Leave a scope and go on. -/
theorem exitScope_bind {t : Table} (h : 1 < t.depth) (k : Unit → Analysis α) :
    (exitScope >>= k) (ctx.analyzer t) = k () (ctx.analyzer t.exit) := by
  have hexit : exitScope (ctx.analyzer t) = .ok () (ctx.analyzer t.exit) := by
    have hsymbols : (ctx.analyzer t).symbols = t := rfl
    unfold exitScope
    rw [hsymbols, (Table.exit?_eq_some h).1]
    rfl
  show EStateM.bind exitScope k (ctx.analyzer t) = _
  unfold EStateM.bind
  rw [hexit]

/-- The scope that was entered is left again: the body keeps the scopes, so there is one to leave. -/
theorem inScope {c : Check} {body : Analysis Unit} (h : Agrees ctx c body) (hdepth : Check.KeepsDepth c) :
    Agrees ctx (Check.inScope c) (do enterScope; body.andUndo exitScope) := by
  intro t
  have hopen : 1 < (EStateM.state (c t.enter)).depth := by
    rw [hdepth t.enter, Table.depth_enter]
    exact Nat.lt_add_of_pos_left t.depth_pos
  show body.andUndo exitScope (ctx.analyzer t.enter) = seenThrough _ _ (Check.inScope c t)
  unfold Analysis.andUndo Check.inScope
  rw [h t.enter]
  cases hc : c t.enter with
  | ok u t₁ =>
      rw [hc] at hopen
      exact exitScope_bind hopen _
  | error e t₁ =>
      rw [hc] at hopen
      exact exitScope_bind hopen _

/-- The loop that was counted is counted off again. -/
theorem inLoop {body : Analysis α} (h : Agrees { ctx with loops := ctx.loops + 1 } x body) :
    Agrees ctx x (do enterLoop; body.andUndo exitLoop) := by
  intro t
  show body.andUndo exitLoop (Context.analyzer { ctx with loops := ctx.loops + 1 } t) = _
  unfold Analysis.andUndo
  rw [h t]
  cases x t <;> rfl

/-- The routine that was set is cleared again. -/
theorem inRoutine {routine : String × Option Ty} {body : Analysis α}
    (h : Agrees { routine := some routine } x body) :
    Agrees {} x (do setRoutine (some routine); body.andUndo (setRoutine none)) := by
  intro t
  show body.andUndo (setRoutine none) (Context.analyzer { routine := some routine } t) = _
  unfold Analysis.andUndo
  rw [h t]
  cases x t <;> rfl

end Agrees

/-! ### Expressions -/

section Expressions

variable {ctx : Context}

/-- Two ways to check a call agree if they check its arguments alike. -/
theorem agrees_inferCallWith {check : Table → List Ty → Except SemanticError Unit} (callee : Ident)
    (count : Nat) (span : Span) {args : List Ty → Analysis Unit}
    (h : ∀ params, Agrees ctx (Check.ofTable (check · params)) (args params)) :
    Agrees ctx (Check.ofTable fun t => do
      let signature ← t.signatureFor callee count span
      check t signature.params
      return signature.result) (inferCallWith callee count span args) :=
  (Agrees.look _).look_bind fun signature => (h signature.params).look_bind fun _ => .ok _

/-- A call that stands for a value: the call, and then its result. -/
theorem type_call (t : Table) (callee : Ident) (args : List Expr) (span : Span) :
    (Expr.call callee args span).type t = callResult t callee args span >>= fun result =>
      match result with
      | some ty => pure ty
      | none => throw ⟨.noValue callee.name, span⟩ := by
  unfold Expr.type callResult
  cases t.signatureFor callee args.length span with
  | error e => rfl
  | ok signature =>
      show (checkArgs t callee.name 1 signature.params args >>= _) =
        (checkArgs t callee.name 1 signature.params args >>= _) >>= _
      cases checkArgs t callee.name 1 signature.params args <;> rfl

mutual

/-- **An analyzer finds the types that `Expr.type` finds.** -/
theorem agrees_infer : ∀ e : Expr, Agrees ctx (Check.ofTable (e.type ·)) e.infer
  | .int _ _ => .ok _
  | .bool _ _ => .ok _
  | .var name span => .look _
  | .paren inner _ => agrees_infer inner
  | .not operand _ => by
      unfold Expr.infer Expr.type
      exact (agrees_infer operand).look_bind fun ty => (Agrees.look _).look_bind fun _ => .ok _
  | .binary op left right _ => by
      unfold Expr.infer Expr.type
      exact (agrees_infer left).look_bind fun _ => (agrees_infer right).look_bind fun _ => .look _
  | .call callee args span => by
      unfold Expr.infer
      simp only [type_call]
      have hcall : Agrees ctx (Check.ofTable (callResult · callee args span))
          (inferCallWith callee args.length span (fun params => inferArgs callee.name 1 params args)) :=
        agrees_inferCallWith callee args.length span
          (fun params => agrees_inferArgs callee.name 1 params args)
      refine hcall.look_bind fun result => ?_
      cases result with
      | some ty => exact .ok ty
      | none => exact .error _

/-- Arguments are checked alike, against their parameters in order. -/
theorem agrees_inferArgs (callee : String) : ∀ (number : Nat) (params : List Ty) (es : List Expr),
    Agrees ctx (Check.ofTable (checkArgs · callee number params es)) (inferArgs callee number params es)
  | number, expected :: params, e :: es => by
      unfold inferArgs checkArgs
      exact (agrees_infer e).look_bind fun _ => (Agrees.look _).look_bind fun _ =>
        agrees_inferArgs callee (number + 1) params es
  | _, [], _ => by
      unfold inferArgs checkArgs
      exact .ok _
  | _, _ :: _, [] => .ok _

end

end Expressions

/-! ### Statements -/

section Statements

variable {ctx : Context}

/-- A call is checked alike. -/
theorem agrees_inferCall (callee : Ident) (args : List Expr) (span : Span) :
    Agrees ctx (Check.ofTable (callResult · callee args span)) (inferCall callee args span) :=
  agrees_inferCallWith callee args.length span (fun params => agrees_inferArgs callee.name 1 params args)

theorem agrees_inferAll (es : List Expr) : Agrees ctx (Check.ofTable (checkValues · es)) (inferAll es) := by
  induction es with
  | nil => exact .ok ()
  | cons e es ih =>
      unfold inferAll checkValues
      have hvalue : Agrees ctx (Check.ofTable fun t => discard (e.type t)) (discard e.infer) :=
        (agrees_infer e).look_bind fun _ => .ok ()
      exact hvalue.look_bind fun _ => ih

/-- A condition is checked alike. -/
theorem agrees_analyzeCondition (context : String) (cond : Expr) :
    Agrees ctx (Check.ofTable (checkCondition context cond)) (analyzeCondition context cond) :=
  (agrees_infer cond).look_bind fun _ => .look _

/-- A `return` is checked alike: the analyzer's own routine stands for that of the context. -/
theorem agrees_analyzeReturn (value : Option Expr) (span : Span) :
    Agrees ctx (Check.ofTable (checkReturn ctx value span)) (analyzeReturn value span) := by
  obtain ⟨routine, loops⟩ := ctx
  cases routine with
  | none => exact fun _ => rfl
  | some routine =>
      obtain ⟨name, result⟩ := routine
      cases result with
      | none => cases value <;> exact fun _ => rfl
      | some expected =>
          cases value with
          | none => exact fun _ => rfl
          | some e =>
              have hvalue : Agrees ⟨some (name, some expected), loops⟩
                  (Check.ofTable fun t => e.type t >>= fun found =>
                    expectType s!"return from '{name}'" expected found e.span)
                  (e.infer >>= fun found => look fun _ =>
                    expectType s!"return from '{name}'" expected found e.span) :=
                (agrees_infer e).look_bind fun _ => .look _
              exact hvalue

/-- A jump is checked alike: the analyzer's count of loops stands for that of the context. -/
theorem agrees_analyzeInLoop (keyword : String) (span : Span) :
    Agrees ctx (Check.ofTable fun _ => checkInLoop ctx keyword span) (analyzeInLoop keyword span) := by
  obtain ⟨routine, loops⟩ := ctx
  cases loops <;> exact fun _ => rfl

theorem agrees_analyzeAssign (target : Ident) (value : Expr) :
    Agrees ctx (Check.ofTable (checkAssign target value)) (analyzeAssign target value) :=
  (Agrees.look _).look_bind fun _ => (agrees_infer value).look_bind fun _ => .look _

mutual

/-- **An analyzer checks statements as `Stmt.check` does.** The induction is over the statement; only the
    body of a loop is checked inside another context. -/
theorem agrees_analyze : ∀ (s : Stmt) (ctx : Context), Agrees ctx (s.check ctx) s.analyze
  | .assign target value _, ctx => by
      unfold Stmt.check Stmt.analyze
      exact (agrees_analyzeAssign target value).bind fun _ => Agrees.onTable _
  | .call callee args span, ctx => by
      unfold Stmt.check Stmt.analyze
      exact (agrees_inferCall callee args span).bind fun _ => .pure ()
  | .return value span, ctx => by
      unfold Stmt.check Stmt.analyze
      exact agrees_analyzeReturn value span
  | .ifThen cond yes _, ctx => by
      unfold Stmt.check Stmt.analyze
      exact (agrees_analyzeCondition "if condition" cond).bind fun _ => agrees_analyze_block yes ctx
  | .ifElse cond yes no _, ctx => by
      unfold Stmt.check Stmt.analyze
      exact (agrees_analyzeCondition "if condition" cond).bind fun _ =>
        (agrees_analyze_block yes ctx).bind fun _ => agrees_analyze_block no ctx
  | .while cond body _, ctx => by
      unfold Stmt.check Stmt.analyze
      exact (agrees_analyzeCondition "while condition" cond).bind fun _ =>
        (agrees_analyze_block body _).inLoop
  | .break span, ctx => by
      unfold Stmt.check Stmt.analyze
      exact agrees_analyzeInLoop "break" span
  | .continue span, ctx => by
      unfold Stmt.check Stmt.analyze
      exact agrees_analyzeInLoop "continue" span
  | .write args _, ctx => by
      unfold Stmt.check Stmt.analyze
      exact agrees_inferAll args

theorem agrees_analyze_block : ∀ (b : Block) (ctx : Context), Agrees ctx (b.check ctx) b.analyze
  | ⟨statements, _⟩, ctx => by
      unfold Block.check Block.analyze
      exact (agrees_analyzeAll statements ctx).inScope (within_checkAll Check.frame_depth statements ctx)

/-- A sequence of statements is checked alike. -/
theorem agrees_analyzeAll : ∀ (ss : List Stmt) (ctx : Context),
    Agrees ctx (checkAll ctx ss) (analyzeAll ss)
  | [], ctx => .pure ()
  | s :: more, ctx => by
      unfold checkAll analyzeAll
      exact (agrees_analyze s ctx).bind fun _ => agrees_analyzeAll more ctx

end

end Statements

/-! ### Programs -/

theorem agrees_analyze_routine (r : Routine) : Agrees {} r.check r.analyze := by
  have hbody : Agrees { routine := some (r.name.name, r.result) }
      (do
        declareParams (Param.flatten r.params)
        checkAll { routine := some (r.name.name, r.result) } r.body.statements)
      (do
        onTable (declareParams (Param.flatten r.params))
        analyzeAll r.body.statements) :=
    (Agrees.onTable _).bind fun _ => agrees_analyzeAll r.body.statements _
  have hdepth := within_routineBody Check.frame_depth Table.depth_declare r
  exact (hbody.inScope hdepth).inRoutine

theorem agrees_analyzeRoutines (ds : List Decl) : Agrees {} (checkRoutines ds) (analyzeRoutines ds) := by
  induction ds with
  | nil => exact .pure ()
  | cons d ds ih =>
      cases d with
      | vars decl => exact ih
      | routine r => exact (agrees_analyze_routine r).bind fun _ => ih

/-- **An analyzer checks programs as `Program.checks` does.** -/
theorem agrees_analyze_program (p : Program) : Agrees {} p.checks p.analyze :=
  (Agrees.onTable _).bind fun _ => (agrees_analyzeRoutines p.declarations).bind fun _ =>
    agrees_analyze_block p.main {}

end TinyPascal
