import TinyPascal.Token.Stream
import TinyPascal.Tree.Parser.Program

/-!
# `Tree.Read` — programs of a token stream

Programs are read off a stream one after the other. Behind a program the stream goes on after its dot;
after a failure it stands at the token that did not fit.

## Contents
- **Errors.** `SyntaxError` is what was expected and the token that was found.
- **Reading.** `Stream.next` reads one program, `Stream.take` several; `Program.ofTokens?` reads the one
  at the start of a list of tokens.
-/

namespace TinyPascal

/-- The first token that does not fit: what was expected instead of it, its text and its place. -/
structure SyntaxError where
  expected : String
  found : String
  span : Span
deriving DecidableEq, Repr

/-- The error in one line. -/
def SyntaxError.message (e : SyntaxError) : String :=
  s!"expected {e.expected}, found: {e.found} (line {e.span.line}, column {e.span.column})"

namespace Stream

/-- The error at the head of a stream. -/
def reject (s : Stream) (expected : Expectation) : SyntaxError :=
  ⟨expected.describe, s.head.kind.text, s.head.span⟩

/-- Read one program. The stream goes on behind its dot, or at the token that did not fit. -/
def next (s : Stream) : Except SyntaxError Program × Stream :=
  match Parser.program s.tokens with
  | .ok ⟨tree, rest, _⟩ => (.ok tree, ⟨rest, s.finish⟩)
  | .error ⟨expected, rest⟩ => (.error (reject ⟨rest, s.finish⟩ expected), ⟨rest, s.finish⟩)

/-- Read `n` programs one after the other, whether or not they fail. -/
def take : Nat → Stream → List (Except SyntaxError Program)
  | 0, _ => []
  | n + 1, s => s.next.1 :: take n s.next.2

end Stream

/-- The program at the start of a list of tokens; none if the list has no place for its end. -/
def Program.ofTokens? (ts : List Token) : Option (Except SyntaxError Program) :=
  (Stream.ofTokens? ts).map (fun s => s.next.1)

end TinyPascal
