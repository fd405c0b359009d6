import TinyPascal.Code.Instr

/-!
# `Code.Render` — written forms of code

## Contents
- **Three-address text.** `Instr.tacLines` gives the lines of an instruction (a declaration has none, a
  call has one for each argument and one more); `renderTac` writes a whole list.
- **Listing.** `Instr.record` gives an operation with its arguments and its result; `renderList` writes
  one record a line.
-/

namespace TinyPascal

/-! ## Three-address text -/

namespace Instr

/-- The lines of an instruction. -/
def tacLines : Instr → List String
  | .decl _ _ => []
  | .sectionStart .main _ _ _ => [".entry"]
  | .sectionStart .procedure name _ _ => [".func " ++ name.getD "" ++ " returns void"]
  | .sectionStart .function name _ result =>
    [".func " ++ name.getD "" ++ " returns " ++ (result.getD .integer).name]
  | .sectionEnd .main _ => ["return"]
  | .sectionEnd .procedure _ => [".endfunc"]
  | .sectionEnd .function _ => [".endfunc"]
  | .const target value => [target ++ " := " ++ value.value.repr]
  | .assign target arg => [target ++ " := " ++ arg]
  | .binary op target left right =>
    [target ++ " := " ++ left ++ " " ++ op.symbol ++ " " ++ right]
  | .not target arg => [target ++ " := not " ++ arg]
  | .call target callee args =>
    args.map ("param " ++ ·) ++ [target ++ " := call " ++ callee ++ ", " ++ args.length.repr]
  | .print arg => ["param " ++ arg, "call writeln, 1"]
  | .ret (some arg) => ["return " ++ arg]
  | .ret none => ["return"]
  | .label l => [l ++ ":"]
  | .goto l => ["goto " ++ l]
  | .ifGoto cond l => ["if " ++ cond ++ " goto " ++ l]
  | .ifNotGoto cond l => ["ifnot " ++ cond ++ " goto " ++ l]

end Instr

/-- Lines as a text; each line ends with a line feed. -/
def unlines (lines : List String) : String :=
  String.join (lines.map (· ++ "\n"))

/-- Code as three-address text. -/
def renderTac (code : List Instr) : String :=
  unlines (code.flatMap Instr.tacLines)

/-! ## Listing -/

/-- An operation, its arguments, and the place of its result if it has one. -/
structure Record where
  op : String
  args : List String
  result : Option String
deriving DecidableEq, Repr

/-- The name of an operator in a record. -/
def BinOp.mnemonic : BinOp → String
  | .add => "add"
  | .sub => "sub"
  | .mul => "mul"
  | .div => "div"
  | .and => "and"
  | .or => "or"
  | .eq => "eq"
  | .neq => "neq"
  | .lt => "lt"
  | .le => "le"
  | .gt => "gt"
  | .ge => "ge"

/-- An instruction as a record. The parameters and the result type of a section are left out. -/
def Instr.record : Instr → Record
  | .decl names ty => ⟨"decl", names ++ [":" ++ ty.name], none⟩
  | .sectionStart kind name _ _ => ⟨"section", kind.name :: name.toList, none⟩
  | .sectionEnd kind name => ⟨"endsection", kind.name :: name.toList, none⟩
  | .const target value => ⟨"const", [value.value.repr], some target⟩
  | .assign target arg => ⟨"mov", [arg, target], none⟩
  | .binary op target left right => ⟨op.mnemonic, [left, right], some target⟩
  | .not target arg => ⟨"not", [arg], some target⟩
  | .call target callee args => ⟨"call", callee :: args, some target⟩
  | .print arg => ⟨"print", [arg], none⟩
  | .ret arg => ⟨"ret", arg.toList, none⟩
  | .label l => ⟨"label", [l], none⟩
  | .goto l => ⟨"jmp", [l], none⟩
  | .ifGoto cond l => ⟨"br", [cond, l], none⟩
  | .ifNotGoto cond l => ⟨"brfalse", [cond, l], none⟩

/-- A name between single quotes. -/
def quote (s : String) : String :=
  "'" ++ s ++ "'"

namespace Record

/-- The part of a record that names its result. -/
def resultText (r : Record) : String :=
  match r.result with
  | some place => ", result: " ++ quote place
  | none => ""

/-- A record in one line. -/
def text (r : Record) : String :=
  "\x7b op: " ++ quote r.op ++ ", args: [ " ++ ", ".intercalate (r.args.map quote) ++ " ]"
    ++ r.resultText ++ " \x7d"

end Record

/-- Code as a listing of records. -/
def renderList (code : List Instr) : String :=
  unlines (["code: ["] ++ code.map (fun i => "  " ++ i.record.text ++ ",") ++ ["]"])

end TinyPascal
