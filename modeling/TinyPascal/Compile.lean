import TinyPascal.Diagnostic
import TinyPascal.Typing.Program

/-!
# `Compile` — from source text to code

Each stage takes the result of the one before it and stops at the first error: tokens, the tree of the
program, the table of its global names, its code.
-/

namespace TinyPascal

/-- The tokens of a source text. -/
def lex (source : String) : Except Error Stream :=
  (Stream.ofSource source).mapError .lexical

/-- The tree of a source text. -/
def parse (source : String) : Except Error Program := do
  let stream ← lex source
  stream.next.1.mapError .syntactic

/-- The tree of a source text that keeps all rules, with the table of its global names. -/
def check (source : String) : Except Error (Program × Table) := do
  let tree ← parse source
  let table ← tree.check.mapError .semantic
  return (tree, table)

/-- The code of a source text that keeps all rules. -/
def compile (source : String) : Except Error (List Instr) := do
  let (tree, _) ← check source
  tree.code.mapError .generation

/-- The code of a source text whose rules are not checked, with a given supply of names. -/
def generate (source : String) (supply : Supply) : Except Error (List Instr) × Supply :=
  match parse source with
  | .error e => (.error e, supply)
  | .ok tree => ((tree.codeWith supply).1.mapError .generation, (tree.codeWith supply).2)

end TinyPascal
