import TinyPascal.Token.Basic

/-!
# `Token.Stream` — tokens with an end

A stream is a list of tokens together with the place of its end. Written out, it ends with the
end-of-stream token.

## Contents
- **Streams.** `Stream.head` is the next token, `Stream.toList` the stream written out.
- **From lists.** `Stream.ofTokens?` completes any list of tokens to a stream. A list without an
  end-of-stream token at its end is given one in the column after its last token starts; it is refused if
  that token stands in the last column, which has none after it. `ofTokens?_toList`: a stream that is
  written out reads back.
-/

namespace TinyPascal

namespace Span

/-- The last column: places are counted with 64 bits. -/
def maxColumn : Nat := 18446744073709551615

/-- The place of the end of a text whose last token has this span, if there is a column for it. -/
def behind? (s : Span) : Option Span :=
  if s.column < maxColumn then some ⟨s.stop, s.stop, s.line, s.column + 1⟩ else none

end Span

/-- The tokens that are left, and the place of the end. -/
structure Stream where
  tokens : List Token
  finish : Span
deriving DecidableEq, Repr

namespace Stream

/-- The end-of-stream token. -/
def last (s : Stream) : Token :=
  ⟨.eof, s.finish⟩

/-- The next token: at the end, the end-of-stream token. -/
def head (s : Stream) : Token :=
  s.tokens.head?.getD s.last

/-- The tokens that are left, the end-of-stream token last. -/
def toList (s : Stream) : List Token :=
  s.tokens ++ [s.last]

/-- A stream of the given tokens. The end is the last token if that is an end-of-stream token; otherwise
    it lies behind the last token, or at the start of the text if there is none. -/
def ofTokens? (ts : List Token) : Option Stream :=
  match ts.getLast? with
  | none => some ⟨[], ⟨0, 0, 1, 1⟩⟩
  | some t =>
    if t.kind = .eof then some ⟨ts.dropLast, t.span⟩
    else t.span.behind?.map (fun finish => ⟨ts, finish⟩)

/-- A stream that is written out reads back. -/
theorem ofTokens?_toList (s : Stream) : ofTokens? s.toList = some s := by
  simp [ofTokens?, toList, last]

end Stream

end TinyPascal
