/-!
# `Source.Span` — places in a source text

## Contents
- **Positions.** `Pos` is a point between two characters: the byte offset in the UTF-8 text, the line
  and the column. `Pos.advance` steps over one character, `Pos.after` over a stretch of text.
- **Spans.** `Span` is a stretch of text: its byte range, with the line and column where it starts.
  `Span.merge` is the smallest span that covers two others.
-/

namespace TinyPascal

/-! ## Spans -/

/-- A stretch of source text: the bytes from `start` up to, not including, `stop`, and the line and
    column of its first character. Lines and columns count from 1, columns in characters. -/
structure Span where
  start : Nat := 0
  stop : Nat := 0
  line : Nat := 0
  column : Nat := 0
deriving DecidableEq, Repr, Inhabited

namespace Span

/-- The smallest range that covers both spans. Line and column follow the span that starts first, and
    the left one when both start together. -/
def merge (a b : Span) : Span where
  start := min a.start b.start
  stop := max a.stop b.stop
  line := if b.start < a.start then b.line else a.line
  column := if b.start < a.start then b.column else a.column

/-- The running merges of a list of spans onto `first`, from left to right, `first` included. -/
def merges (first : Span) : List Span → List Span
  | [] => [first]
  | next :: more => first :: merges (first.merge next) more

@[simp] theorem merge_self (a : Span) : a.merge a = a := by
  simp [merge]

end Span

/-! ## Positions -/

/-- A point in a source text. -/
structure Pos where
  offset : Nat := 0
  line : Nat := 1
  column : Nat := 1
deriving DecidableEq, Repr, Inhabited

namespace Pos

/-- The position just after the character `c`. Only a line feed ends a line. -/
def advance (p : Pos) (c : Char) : Pos :=
  if c = '\n' then ⟨p.offset + c.utf8Size, p.line + 1, 1⟩
  else ⟨p.offset + c.utf8Size, p.line, p.column + 1⟩

/-- The position just after a stretch of text. -/
def after (p : Pos) (text : List Char) : Pos :=
  text.foldl advance p

/-- The span between two positions, located at the first. -/
def spanTo (p q : Pos) : Span :=
  ⟨p.offset, q.offset, p.line, p.column⟩

@[simp] theorem after_nil (p : Pos) : p.after [] = p := rfl

@[simp] theorem after_cons (p : Pos) (c : Char) (cs : List Char) :
    p.after (c :: cs) = (p.advance c).after cs := rfl

theorem after_append (p : Pos) (cs ds : List Char) :
    p.after (cs ++ ds) = (p.after cs).after ds :=
  List.foldl_append

end Pos

end TinyPascal
