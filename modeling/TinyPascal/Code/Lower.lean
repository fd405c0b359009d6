import TinyPascal.Code.Supply

/-!
# `Code.Lower` — from trees to instructions

Expressions become straight-line code that leaves the value in a place; control flow becomes labels and
jumps:

```text
if c then A                 if c then A else B          while c do A
  ifnot c goto L_end_n        if c goto L_then_n          L_while_start_n:
  A                           goto L_else_m               ifnot c goto L_while_end_m
L_end_n:                    L_then_n:                     A
                              A                           goto L_while_start_n
                              goto L_end_k              L_while_end_m:
                            L_else_m:
                              B
                            L_end_k:
```

## Contents
- **Expressions.** `Expr.lower` is a function of the number of temporaries handed out before; a name is
  its own place and needs no code.
- **Statements.** `Stmt.lower` takes the labels of the innermost loop. It fails only on a `break` or
  `continue` without a loop, and the supply keeps the names handed out up to there.
- **Programs.** `Program.lower` goes on with a given supply, `Program.code` starts afresh.
-/

namespace TinyPascal

/-! ## Expressions -/

/-- Code, what it leaves behind, and the number of temporaries handed out after it. -/
structure Lowered (α : Type) where
  code : List Instr
  result : α
  temps : Nat

mutual

/-- The code of an expression and the place of its value, after `k` temporaries. -/
def Expr.lower : Expr → Nat → Lowered Place
  | .int n _, k => ⟨[.const (tempName (k + 1)) (.int n)], tempName (k + 1), k + 1⟩
  | .bool b _, k => ⟨[.const (tempName (k + 1)) (.bool b)], tempName (k + 1), k + 1⟩
  | .var name _, k => ⟨[], name, k⟩
  | .paren inner _, k => inner.lower k
  | .not operand _, k =>
    let a := operand.lower k
    let target := tempName (a.temps + 1)
    ⟨a.code ++ [.not target a.result], target, a.temps + 1⟩
  | .binary op left right _, k =>
    let a := left.lower k
    let b := right.lower a.temps
    let target := tempName (b.temps + 1)
    ⟨a.code ++ b.code ++ [.binary op target a.result b.result], target, b.temps + 1⟩
  | .call callee args _, k =>
    let a := lowerArgs args k
    let target := tempName (a.temps + 1)
    ⟨a.code ++ [.call target callee.name a.result], target, a.temps + 1⟩

/-- The code of arguments from left to right, and the places of their values. -/
def lowerArgs : List Expr → Nat → Lowered (List Place)
  | [], k => ⟨[], [], k⟩
  | e :: es, k =>
    let a := e.lower k
    let b := lowerArgs es a.temps
    ⟨a.code ++ b.code, a.result :: b.result, b.temps⟩

end

/-- The code of a call, and the place of its result. -/
def lowerCall (callee : Ident) (args : List Expr) (k : Nat) : Lowered Place :=
  let a := lowerArgs args k
  let target := tempName (a.temps + 1)
  ⟨a.code ++ [.call target callee.name a.result], target, a.temps + 1⟩

/-- The code that prints values one after the other, each as soon as it is there. -/
def lowerPrints : List Expr → Nat → Lowered Unit
  | [], k => ⟨[], (), k⟩
  | e :: es, k =>
    let a := e.lower k
    let b := lowerPrints es a.temps
    ⟨a.code ++ [.print a.result] ++ b.code, (), b.temps⟩

/-! ## Statements -/

/-- The statements that jump out of the body of a loop. -/
inductive Jump where
  | break | continue
deriving DecidableEq, Repr

def Jump.keyword : Jump → String
  | .break => "break"
  | .continue => "continue"

/-- A jump without a loop around it. -/
structure StrayJump where
  jump : Jump
  span : Span
deriving DecidableEq, Repr

def StrayJump.message (e : StrayJump) : String :=
  s!"'{e.jump.keyword}' outside of a loop during IR generation"

/-- The labels of a loop. -/
structure Loop where
  start : Label
  stop : Label
deriving DecidableEq, Repr

/-- A step that hands out names and may meet a stray jump. -/
abbrev Gen := EStateM StrayJump Supply

namespace Gen

/-- Hand out a label. -/
def label (stem : String) : Gen Label :=
  modifyGet (fun s => s.label stem)

/-- Run a step that hands out temporaries only. -/
def temps {α : Type} (f : Nat → Lowered α) : Gen (Lowered α) :=
  fun s => .ok (f s.temps) { s with temps := (f s.temps).temps }

end Gen

mutual

/-- The code of a statement inside the given loop. -/
def Stmt.lower (loop : Option Loop) : Stmt → Gen (List Instr)
  | .assign target value _ => do
    let a ← Gen.temps value.lower
    return a.code ++ [.assign target.name a.result]
  | .call callee args _ => do
    let a ← Gen.temps (lowerCall callee args)
    return a.code
  | .return none _ => return [.ret none]
  | .return (some value) _ => do
    let a ← Gen.temps value.lower
    return a.code ++ [.ret (some a.result)]
  | .ifThen cond yes _ => do
    let c ← Gen.temps cond.lower
    -- Both kinds of `if` hand out a label for the first branch; this one has no use for it.
    discard <| Gen.label "L_then_"
    let stop ← Gen.label "L_end_"
    let body ← yes.lower loop
    return c.code ++ [.ifNotGoto c.result stop] ++ body ++ [.label stop]
  | .ifElse cond yes no _ => do
    let c ← Gen.temps cond.lower
    let first ← Gen.label "L_then_"
    let second ← Gen.label "L_else_"
    let stop ← Gen.label "L_end_"
    let a ← yes.lower loop
    let b ← no.lower loop
    return c.code ++ [.ifGoto c.result first, .goto second, .label first] ++ a
      ++ [.goto stop, .label second] ++ b ++ [.label stop]
  | .while cond body _ => do
    let start ← Gen.label "L_while_start_"
    let stop ← Gen.label "L_while_end_"
    let c ← Gen.temps cond.lower
    let a ← body.lower (some ⟨start, stop⟩)
    return [.label start] ++ c.code ++ [.ifNotGoto c.result stop] ++ a
      ++ [.goto start, .label stop]
  | .break span =>
    match loop with
    | some l => return [.goto l.stop]
    | none => throw ⟨.break, span⟩
  | .continue span =>
    match loop with
    | some l => return [.goto l.start]
    | none => throw ⟨.continue, span⟩
  | .write args _ => do
    let a ← Gen.temps (lowerPrints args)
    return a.code

def Block.lower (loop : Option Loop) : Block → Gen (List Instr)
  | ⟨statements, _⟩ => lowerAll loop statements

/-- The code of statements in order. -/
def lowerAll (loop : Option Loop) : List Stmt → Gen (List Instr)
  | [] => return []
  | s :: more => do
    let a ← s.lower loop
    let b ← lowerAll loop more
    return a ++ b

end

/-! ## Programs -/

/-- The kind of the section of a routine. -/
def Routine.sectionKind (r : Routine) : SectionKind :=
  match r.result with
  | some _ => .function
  | none => .procedure

/-- The section of a routine. -/
def Routine.lower (r : Routine) : Gen (List Instr) := do
  let params := (Param.flatten r.params).map (fun (name, ty) => (name.name, ty))
  let body ← r.body.lower none
  return [.sectionStart r.sectionKind (some r.name.name) params r.result] ++ body
    ++ [.sectionEnd r.sectionKind (some r.name.name)]

/-- The code of declarations in order. -/
def lowerDecls : List Decl → Gen (List Instr)
  | [] => return []
  | .vars decl :: more => do
    let b ← lowerDecls more
    return .decl (decl.names.map Ident.name) decl.ty :: b
  | .routine r :: more => do
    let a ← r.lower
    let b ← lowerDecls more
    return a ++ b

namespace Program

/-- The code of a program: its declarations, then the main section. -/
def lower (p : Program) : Gen (List Instr) := do
  let declarations ← lowerDecls p.declarations
  let main ← p.main.lower none
  return declarations ++ [.sectionStart .main none [] none] ++ main ++ [.sectionEnd .main none]

/-- The code of a program with a given supply of names, and the supply after it. -/
def codeWith (p : Program) (s : Supply) : Except StrayJump (List Instr) × Supply :=
  match p.lower s with
  | .ok code s' => (.ok code, s')
  | .error e s' => (.error e, s')

/-- The code of a program with fresh names. -/
def code (p : Program) : Except StrayJump (List Instr) :=
  (p.codeWith {}).1

end Program

end TinyPascal
