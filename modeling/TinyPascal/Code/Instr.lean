import TinyPascal.Tree.Basic

/-!
# `Code.Instr` — three-address instructions

A program is a flat list of instructions: declarations of global variables, one section for each routine,
and the main section last. Operands are places, that is, names of variables and temporaries; literals
occur only in `const`.

## Contents
- **Instructions.** `Literal`, `SectionKind`, `Instr`.
- **Single-instruction projections.** `Instr.reads`, `Instr.writes?`, `Instr.target?`, `Instr.defines?`:
  the places that an instruction reads and writes, the label that it jumps to, the label that it sets.
-/

namespace TinyPascal

/-- The name of a variable, a parameter or a temporary. -/
abbrev Place := String

/-- The name of a jump target. -/
abbrev Label := String

/-- A written value. -/
inductive Literal where
  | int (value : Int)
  | bool (value : Bool)
deriving DecidableEq, Repr

/-- The number that a literal is stored as: 1 and 0 for the booleans. -/
def Literal.value : Literal → Int
  | .int n => n
  | .bool true => 1
  | .bool false => 0

/-- What a section holds the code of. -/
inductive SectionKind where
  | procedure | function | main
deriving DecidableEq, Repr

def SectionKind.name : SectionKind → String
  | .procedure => "procedure"
  | .function => "function"
  | .main => "main"

/-- Instructions. -/
inductive Instr where
  /-- Global variables of one type. -/
  | decl (names : List String) (ty : Ty)
  /-- The code of a routine or of the main block starts. -/
  | sectionStart (kind : SectionKind) (name : Option String) (params : List (String × Ty))
      (result : Option Ty)
  | sectionEnd (kind : SectionKind) (name : Option String)
  /-- `target := value` -/
  | const (target : Place) (value : Literal)
  /-- `target := arg` -/
  | assign (target arg : Place)
  /-- `target := left op right` -/
  | binary (op : BinOp) (target left right : Place)
  /-- `target := not arg` -/
  | not (target arg : Place)
  /-- `target := callee(args)` -/
  | call (target : Place) (callee : String) (args : List Place)
  /-- Print one value. -/
  | print (arg : Place)
  | ret (arg : Option Place)
  | label (label : Label)
  | goto (label : Label)
  /-- Jump if the condition is true. -/
  | ifGoto (cond : Place) (label : Label)
  /-- Jump if the condition is false. -/
  | ifNotGoto (cond : Place) (label : Label)
deriving DecidableEq, Repr

namespace Instr

/-! ## Single-instruction projections -/

/-- The places that an instruction reads, in order. -/
def reads : Instr → List Place
  | .assign _ arg | .not _ arg | .print arg => [arg]
  | .binary _ _ left right => [left, right]
  | .call _ _ args => args
  | .ret arg => arg.toList
  | .ifGoto cond _ | .ifNotGoto cond _ => [cond]
  | _ => []

/-- The place that an instruction writes. -/
def writes? : Instr → Option Place
  | .const target _ | .assign target _ | .binary _ target _ _ | .not target _ | .call target _ _ =>
    some target
  | _ => none

/-- The label that an instruction may jump to. -/
def target? : Instr → Option Label
  | .goto l | .ifGoto _ l | .ifNotGoto _ l => some l
  | _ => none

/-- The label that an instruction sets. -/
def defines? : Instr → Option Label
  | .label l => some l
  | _ => none

end Instr

end TinyPascal
