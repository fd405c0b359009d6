import TinyPascal.Proofs.Semantics.Store
import TinyPascal.Proofs.Tree.Occurrences

/-!
# `Proofs.Semantics.BigStep` — running the tree of a program

The meaning of a tree, without code: expressions are evaluated and statements executed from left to
right and from top to bottom. Both operands of an operator are always evaluated.

A name, and a call of a routine that ends without a value, may give **no value**. That shows where the
value is asked for: an operator, an assignment, a test, an argument, a `return` or a `writeln` needs one.

## Contents
- **Exits.** How a statement ends: normally, or by one of the jumps.
- **Rules.** `Eval` for expressions, `EvalArgs` for arguments, `Calls` for a call of a routine,
  `Exec` for statements, `ExecAll` for sequences, `Prints` for the arguments of a `writeln`.
- **Programs.** `Program.Runs`: the main block ends normally.
-/

namespace TinyPascal

/-! ## Exits -/

/-- How a statement ends. -/
inductive Exit (V : Type) where
  | normal
  | break
  | continue
  | return (value : Option V)

/-- What a body that ends this way gives back to its caller; a jump that no loop has taken up gives
    nothing. -/
def Exit.result? {V : Type} : Exit V → Option (Option V)
  | .normal => some none
  | .return value => some value
  | .break | .continue => none

/-- The exits of a body after which its loop goes round again. -/
def Exit.repeats {V : Type} : Exit V → Bool
  | .normal | .continue => true
  | .break | .return _ => false

/-- The routine of a name. -/
def Program.routine? (p : Program) (name : String) : Option Routine :=
  p.routines.find? (fun r => r.name.name = name)

/-! ## Rules -/

mutual

/-- `Eval I p σ w e r w'`: the value of `e` is `r`, and evaluating it takes the world from `w` to `w'`. -/
inductive Eval {V : Type} (I : Meaning V) (p : Program) :
    Activation V → World V → Expr → Option V → World V → Prop where
  | int {σ w n span} : Eval I p σ w (.int n span) (some (I.literal (.int n))) w
  | bool {σ w b span} : Eval I p σ w (.bool b span) (some (I.literal (.bool b))) w
  | var {σ w x span} : Eval I p σ w (.var x span) (σ.read w x) w
  | paren {σ w inner span r w'} :
      Eval I p σ w inner r w' → Eval I p σ w (.paren inner span) r w'
  | not {σ w operand span a v w'} :
      Eval I p σ w operand (some a) w' → I.negate a = some v →
      Eval I p σ w (.not operand span) (some v) w'
  | binary {σ w op left right span a b v w₁ w₂} :
      Eval I p σ w left (some a) w₁ → Eval I p σ w₁ right (some b) w₂ →
      I.binary op a b = some v →
      Eval I p σ w (.binary op left right span) (some v) w₂
  | call {σ w callee args span vs r w₁ w₂} :
      EvalArgs I p σ w args (vs.map some) w₁ → Calls I p w₁ callee.name vs r w₂ →
      Eval I p σ w (.call callee args span) r w₂

/-- Arguments, from left to right. -/
inductive EvalArgs {V : Type} (I : Meaning V) (p : Program) :
    Activation V → World V → List Expr → List (Option V) → World V → Prop where
  | nil {σ w} : EvalArgs I p σ w [] [] w
  | cons {σ w e es r rs w₁ w₂} :
      Eval I p σ w e r w₁ → EvalArgs I p σ w₁ es rs w₂ →
      EvalArgs I p σ w (e :: es) (r :: rs) w₂

/-- `Calls I p w f vs r w'`: the routine `f`, called with `vs`, gives back `r`. Its body runs in a scope
    of its own, which holds the parameters. -/
inductive Calls {V : Type} (I : Meaning V) (p : Program) :
    World V → String → List V → Option V → World V → Prop where
  | intro {w f vs exit r σ' w'} {routine : Routine} :
      p.routine? f = some routine → routine.paramNames.length = vs.length →
      ExecAll I p (.ofArgs routine.paramNames vs) w routine.body.statements exit σ' w' →
      exit.result? = some r →
      Calls I p w f vs r w'

/-- `Exec I p σ w s exit σ' w'`: the statement `s` takes `σ` and `w` to `σ'` and `w'`, and ends with
    `exit`. -/
inductive Exec {V : Type} (I : Meaning V) (p : Program) :
    Activation V → World V → Stmt → Exit V → Activation V → World V → Prop where
  | assign {σ w target value span v w'} :
      Eval I p σ w value (some v) w' →
      Exec I p σ w (.assign target value span) .normal (σ.set target.name (some v))
        (w'.set σ target.name (some v))
  | call {σ w callee args span r w'} :
      Eval I p σ w (.call callee args span) r w' →
      Exec I p σ w (.call callee args span) .normal σ w'
  | returnNone {σ w span} : Exec I p σ w (.return none span) (.return none) σ w
  | returnSome {σ w value span v w'} :
      Eval I p σ w value (some v) w' →
      Exec I p σ w (.return (some value) span) (.return (some v)) σ w'
  | ifThenTrue {σ w cond yes span v w₁ exit σ' w₂} :
      Eval I p σ w cond (some v) w₁ → I.truth v = some true →
      ExecAll I p σ w₁ yes.statements exit σ' w₂ →
      Exec I p σ w (.ifThen cond yes span) exit σ' w₂
  | ifThenFalse {σ w cond yes span v w₁} :
      Eval I p σ w cond (some v) w₁ → I.truth v = some false →
      Exec I p σ w (.ifThen cond yes span) .normal σ w₁
  | ifElseTrue {σ w cond yes no span v w₁ exit σ' w₂} :
      Eval I p σ w cond (some v) w₁ → I.truth v = some true →
      ExecAll I p σ w₁ yes.statements exit σ' w₂ →
      Exec I p σ w (.ifElse cond yes no span) exit σ' w₂
  | ifElseFalse {σ w cond yes no span v w₁ exit σ' w₂} :
      Eval I p σ w cond (some v) w₁ → I.truth v = some false →
      ExecAll I p σ w₁ no.statements exit σ' w₂ →
      Exec I p σ w (.ifElse cond yes no span) exit σ' w₂
  | whileDone {σ w cond body span v w₁} :
      Eval I p σ w cond (some v) w₁ → I.truth v = some false →
      Exec I p σ w (.while cond body span) .normal σ w₁
  | whileNext {σ w cond body span v w₁ exit σ₁ w₂ exit' σ₂ w₃} :
      Eval I p σ w cond (some v) w₁ → I.truth v = some true →
      ExecAll I p σ w₁ body.statements exit σ₁ w₂ → exit.repeats = true →
      Exec I p σ₁ w₂ (.while cond body span) exit' σ₂ w₃ →
      Exec I p σ w (.while cond body span) exit' σ₂ w₃
  | whileBreak {σ w cond body span v w₁ σ₁ w₂} :
      Eval I p σ w cond (some v) w₁ → I.truth v = some true →
      ExecAll I p σ w₁ body.statements .break σ₁ w₂ →
      Exec I p σ w (.while cond body span) .normal σ₁ w₂
  | whileReturn {σ w cond body span v w₁ r σ₁ w₂} :
      Eval I p σ w cond (some v) w₁ → I.truth v = some true →
      ExecAll I p σ w₁ body.statements (.return r) σ₁ w₂ →
      Exec I p σ w (.while cond body span) (.return r) σ₁ w₂
  | break {σ w span} : Exec I p σ w (.break span) .break σ w
  | continue {σ w span} : Exec I p σ w (.continue span) .continue σ w
  | write {σ w args span w'} :
      Prints I p σ w args w' → Exec I p σ w (.write args span) .normal σ w'

/-- Statements in order, up to the first that does not end normally. -/
inductive ExecAll {V : Type} (I : Meaning V) (p : Program) :
    Activation V → World V → List Stmt → Exit V → Activation V → World V → Prop where
  | nil {σ w} : ExecAll I p σ w [] .normal σ w
  | next {σ w s more σ₁ w₁ exit σ₂ w₂} :
      Exec I p σ w s .normal σ₁ w₁ → ExecAll I p σ₁ w₁ more exit σ₂ w₂ →
      ExecAll I p σ w (s :: more) exit σ₂ w₂
  | stop {σ w s more exit σ₁ w₁} :
      Exec I p σ w s exit σ₁ w₁ → exit ≠ .normal →
      ExecAll I p σ w (s :: more) exit σ₁ w₁

/-- Values are printed as soon as they are there: each before the next is evaluated. -/
inductive Prints {V : Type} (I : Meaning V) (p : Program) :
    Activation V → World V → List Expr → World V → Prop where
  | nil {σ w} : Prints I p σ w [] w
  | cons {σ w e es v w₁ w₂} :
      Eval I p σ w e (some v) w₁ → Prints I p σ (w₁.print v) es w₂ →
      Prints I p σ w (e :: es) w₂

end

/-! ## Programs -/

/-- The tree, run from the globals `g`, ends normally: it has printed `out`, and the globals are `g'`. -/
def Program.Runs {V : Type} (I : Meaning V) (p : Program) (g : Env V) (out : List V) (g' : Env V) :
    Prop :=
  ∃ exit r σ', ExecAll I p (.ofArgs [] []) ⟨g, []⟩ p.main.statements exit σ' ⟨g', out⟩ ∧
    exit.result? = some r

end TinyPascal
