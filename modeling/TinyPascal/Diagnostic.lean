import TinyPascal.Code.Lower
import TinyPascal.Token.Scan
import TinyPascal.Tree.Read
import TinyPascal.Typing.Error

/-!
# `Diagnostic` — errors of all stages

## Contents
- **Errors.** `Error` is the error of any stage; `Error.message` says which stage it is from.
- **Reports.** `Report` is a message with the stretch of the source that it is about.
-/

namespace TinyPascal

/-! ## Errors -/

/-- Why a source text is refused. -/
inductive Error where
  | lexical (e : LexError)
  | syntactic (e : SyntaxError)
  | semantic (e : SemanticError)
  | generation (e : StrayJump)
deriving DecidableEq, Repr

namespace Error

def span : Error → Span
  | .lexical e => e.span
  | .syntactic e => e.span
  | .semantic e => e.span
  | .generation e => e.span

def message : Error → String
  | .lexical e => "lexical error: " ++ e.message
  | .syntactic e => "syntax error: " ++ e.message
  | .semantic e => "semantic error: " ++ e.violation.message
  | .generation e => "generation error: " ++ e.message

/-- What is written under the stretch of source that the error is about. -/
def label : Error → String
  | .lexical _ => "not valid here"
  | .syntactic _ => "unexpected token"
  | .semantic _ => "rejected here"
  | .generation _ => "cannot lower this"

end Error

/-! ## Reports -/

/-- A message about a stretch of source: `length` bytes from `offset`, with a label under them. -/
structure Report where
  message : String
  source : String
  offset : Nat
  length : Nat
  label : String

/-- A report about a span. The stretch stays inside the source, and it is never empty unless it lies at
    the end. -/
def Report.about (message source : String) (span : Span) (label : String) : Report where
  message := message
  source := source
  offset := min span.start source.utf8ByteSize
  length := min (max (span.stop - span.start) 1)
    (source.utf8ByteSize - min span.start source.utf8ByteSize)
  label := label

def Error.report (e : Error) (source : String) : Report :=
  .about e.message source e.span e.label

end TinyPascal
