import TinyPascal.Token.Lexeme
import TinyPascal.Token.Stream

/-!
# `Token.Scan` — located tokens of a source text

## Contents
- **Places.** `Lexeme.locate` gives each lexeme of a text its span.
- **Scanning.** A `Scanner` holds the text still to be read, the place reached and the errors met so
  far. `Scanner.scan` reads it to the end: faults are recorded and skipped. Scanning again finds nothing
  but the end of the stream.
- **All or nothing.** `Stream.ofSource` gives the tokens of a text without faults, or its first error.
-/

namespace TinyPascal

/-! ## Errors -/

/-- A lexical error: what is wrong, and where. -/
structure LexError where
  text : String
  span : Span
deriving DecidableEq, Repr

/-- The error in one line, with the line and column of its first character. -/
def LexError.message (e : LexError) : String :=
  s!"{e.text} (line {e.span.line}, column {e.span.column})"

/-! ## Places -/

namespace Lexeme

/-- The lexemes with their spans, the first one starting at `p`. -/
def locate (p : Pos) : List Lexeme → List (Lexeme × Span)
  | [] => []
  | l :: ls => (l, p.spanTo (p.after l.text)) :: locate (p.after l.text) ls

/-- The token that a located lexeme is, if it is one. -/
def token? : Lexeme × Span → Option Token
  | (⟨.token kind, _⟩, span) => some ⟨kind, span⟩
  | _ => none

/-- The error that a located lexeme is, if it is one. -/
def error? : Lexeme × Span → Option LexError
  | (⟨.fault fault, _⟩, span) => some ⟨fault.describe, span⟩
  | _ => none

end Lexeme

/-! ## Scanning -/

/-- A text that is being scanned. -/
structure Scanner where
  rest : List Char
  pos : Pos := {}
  errors : List LexError := []

namespace Scanner

def ofSource (source : String) : Scanner :=
  { rest := source.toList }

/-- The lexemes still to come, with their spans. -/
def upcoming (s : Scanner) : List (Lexeme × Span) :=
  Lexeme.locate s.pos (Lexeme.split s.rest)

/-- The place of the end of the text. -/
def finish (s : Scanner) : Span :=
  (s.pos.after s.rest).spanTo (s.pos.after s.rest)

/-- The tokens up to the end of the text. -/
def stream (s : Scanner) : Stream :=
  ⟨s.upcoming.filterMap Lexeme.token?, s.finish⟩

/-- The scanner at the end of the text, with the errors met on the way. -/
def skipToEnd (s : Scanner) : Scanner where
  rest := []
  pos := s.pos.after s.rest
  errors := s.errors ++ s.upcoming.filterMap Lexeme.error?

/-- Read to the end of the text. -/
def scan (s : Scanner) : Stream × Scanner :=
  (s.stream, s.skipToEnd)

/-- A scanner at the end of its text finds the same end and nothing else. -/
theorem scan_skipToEnd (s : Scanner) :
    s.skipToEnd.scan = (⟨[], s.finish⟩, s.skipToEnd) := by
  simp [scan, stream, skipToEnd, upcoming, finish, Lexeme.split, Lexeme.locate]

end Scanner

/-- The tokens of a text, or its first lexical error. -/
def Stream.ofSource (source : String) : Except LexError Stream :=
  let s := Scanner.ofSource source
  match s.skipToEnd.errors with
  | e :: _ => .error e
  | [] => .ok s.stream

end TinyPascal
