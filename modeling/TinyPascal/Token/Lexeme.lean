import TinyPascal.Token.Basic

/-!
# `Token.Lexeme` — cutting a text into lexemes

A text is cut from left to right into **lexemes**: tokens, stretches to skip, and faults. Cutting looks
at characters only; places are added afterwards (`Token.Scan`).

## Contents
- **Classes.** `Fault` is a stretch of text that is no token, `Lexeme.Class` what a lexeme is.
- **One lexeme.** `Lexeme.cut c cs` decides what starts at `c`: how far it reaches into `cs` and what it
  is. `cut_tiles`: it splits `cs` in two and loses nothing.
- **The whole text.** `Lexeme.split`, with `flatten_split`: the texts of the lexemes, put together, are
  the text that was cut.
-/

namespace TinyPascal

/-! ## Classes -/

/-- A stretch of text that is neither a token nor skipped. -/
inductive Fault where
  /-- A character that starts nothing. -/
  | strayChar (c : Char)
  /-- A brace comment that runs to the end of the text. -/
  | openComment
  /-- A string that is not closed on its line. -/
  | openString
  /-- A run of digits whose value exceeds `Lexeme.maxInt`. -/
  | intTooLarge (digits : String)
deriving DecidableEq, Repr

/-- What the fault is, in the words of an error message. -/
def Fault.describe : Fault → String
  | .strayChar c => "Invalid character '" ++ String.singleton c ++ "'"
  | .openComment => "Unterminated comment"
  | .openString => "Unterminated string"
  | .intTooLarge digits => "Integer literal '" ++ digits ++ "' out of range"

namespace Lexeme

/-- What a lexeme is. -/
inductive Class where
  /-- A blank or a comment. -/
  | skip
  | token (kind : Token.Kind)
  | fault (fault : Fault)
deriving DecidableEq, Repr

end Lexeme

/-- A stretch of text and what it is. -/
structure Lexeme where
  cls : Lexeme.Class
  text : List Char
deriving DecidableEq, Repr

namespace Lexeme

/-! ## Character classes -/

/-- The blanks are space, tab, carriage return and line feed, and no others. -/
def isBlank (c : Char) : Bool :=
  c = ' ' || c = '\t' || c = '\r' || c = '\n'

/-- Words start with an ASCII letter or an underscore. -/
def isWordStart (c : Char) : Bool :=
  c.isAlpha || c = '_'

/-- Words go on with ASCII letters, digits and underscores. -/
def isWordRest (c : Char) : Bool :=
  c.isAlphanum || c = '_'

/-! ## One lexeme -/

/-- What starts at a character: its class, the characters that follow as part of it, and the rest. -/
structure Cut where
  cls : Class
  more : List Char
  rest : List Char

/-- The largest integer that can be written, one less than the 63rd power of 2. -/
def maxInt : Nat := 9223372036854775807

/-- The value of a run of decimal digits. -/
def decimal (digits : List Char) : Nat :=
  digits.foldl (fun n d => 10 * n + (d.toNat - '0'.toNat)) 0

/-- A run of digits is an integer if its value can be written, however many zeros lead it. -/
def number (digits : List Char) : Class :=
  if decimal digits ≤ maxInt then .token (.int (decimal digits))
  else .fault (.intTooLarge (String.ofList digits))

/-- The characters of `cs` that satisfy `p` belong to the lexeme, up to the first that does not. -/
def run (p : Char → Bool) (cls : List Char → Class) (cs : List Char) : Cut :=
  ⟨cls (cs.takeWhile p), cs.takeWhile p, cs.dropWhile p⟩

/-- A brace comment, after its opening brace: it ends at the first closing brace. -/
def comment (cs : List Char) : Cut :=
  match cs.dropWhile (· != '\x7d') with
  | [] => ⟨.fault .openComment, cs, []⟩
  | close :: rest => ⟨.skip, cs.takeWhile (· != '\x7d') ++ [close], rest⟩

/-- A string literal after its opening quote: the content (none if no quote closes it on its line), the
    text up to and with the closing quote, and the rest. -/
structure Quoted where
  content : Option (List Char)
  text : List Char
  rest : List Char

/-- The characters `text` written in front of a literal that add `chars` to its content. -/
def Quoted.grow (chars text : List Char) (q : Quoted) : Quoted :=
  ⟨q.content.map (chars ++ ·), text ++ q.text, q.rest⟩

/-- Read a string literal after its opening quote. A quote written twice stands for one quote; a line
    feed never belongs to a literal. -/
def quoted : List Char → Quoted
  | [] => ⟨none, [], []⟩
  | '\'' :: '\'' :: cs => (quoted cs).grow ['\''] ['\'', '\'']
  | c :: cs =>
    if c = '\'' then ⟨some [], [c], cs⟩
    else if c = '\n' then ⟨none, [], c :: cs⟩
    else (quoted cs).grow [c] [c]

/-- The class of a string literal with the given content. -/
def literal : Option (List Char) → Class
  | some content => .token (.str (String.ofList content))
  | none => .fault .openString

/-- The token that a single mark stands for. -/
def mark? : Char → Option Token.Kind
  | '(' => some (.punct .lparen)
  | ')' => some (.punct .rparen)
  | ';' => some (.punct .semicolon)
  | ',' => some (.punct .comma)
  | '.' => some (.punct .dot)
  | ':' => some (.punct .colon)
  | '+' => some (.operator .plus)
  | '-' => some (.operator .minus)
  | '*' => some (.operator .star)
  | '/' => some (.operator .slash)
  | '=' => some (.operator .eq)
  | '<' => some (.operator .lt)
  | '>' => some (.operator .gt)
  | _ => none

/-- The operator that two marks in a row stand for. -/
def pair? : Char → Char → Option Operator
  | ':', '=' => some .assign
  | '<', '=' => some .ltEq
  | '<', '>' => some .notEq
  | '>', '=' => some .gtEq
  | _, _ => none

/-- A single mark, or a character that starts nothing. -/
def single (c : Char) : Class :=
  match mark? c with
  | some kind => .token kind
  | none => .fault (.strayChar c)

/-- An operator or a mark: two characters when they make an operator, else one. -/
def mark (c : Char) (cs : List Char) : Cut :=
  match cs with
  | [] => ⟨single c, [], []⟩
  | d :: ds =>
    match pair? c d with
    | some op => ⟨.token (.operator op), [d], ds⟩
    | none => ⟨single c, [], d :: ds⟩

/-- What starts at `c` when `cs` follows. -/
def cut (c : Char) (cs : List Char) : Cut :=
  if isBlank c then ⟨.skip, [], cs⟩
  else if c = '/' ∧ cs.head? = some '/' then run (· != '\n') (fun _ => .skip) cs
  else if c = '\x7b' then comment cs
  else if c = '\'' then ⟨literal (quoted cs).content, (quoted cs).text, (quoted cs).rest⟩
  else if c.isDigit then run Char.isDigit (fun ds => number (c :: ds)) cs
  else if isWordStart c then
    run isWordRest (fun ds => .token (.ofWord (String.ofList (c :: ds)))) cs
  else mark c cs

/-! ## Nothing is lost -/

theorem quoted_tiles (cs : List Char) : (quoted cs).text ++ (quoted cs).rest = cs := by
  fun_induction quoted cs with
  | case1 => rfl
  | case2 cs ih => simp [Quoted.grow, ih]
  | case3 => simp
  | case4 => simp
  | case5 c cs _ _ _ ih => simp [Quoted.grow, ih]

theorem run_tiles (p : Char → Bool) (cls : List Char → Class) (cs : List Char) :
    (run p cls cs).more ++ (run p cls cs).rest = cs :=
  List.takeWhile_append_dropWhile

theorem comment_tiles (cs : List Char) : (comment cs).more ++ (comment cs).rest = cs := by
  unfold comment
  split
  · simp
  · rename_i close rest h
    simp only [List.append_assoc, List.singleton_append]
    rw [← h, List.takeWhile_append_dropWhile]

theorem mark_tiles (c : Char) (cs : List Char) : (mark c cs).more ++ (mark c cs).rest = cs := by
  unfold mark
  split
  · rfl
  · split <;> rfl

/-- **A cut loses nothing**: what the lexeme takes and what it leaves make up the text. -/
theorem cut_tiles (c : Char) (cs : List Char) : (cut c cs).more ++ (cut c cs).rest = cs := by
  unfold cut
  split
  · rfl
  split
  · exact run_tiles _ _ _
  split
  · exact comment_tiles _
  split
  · exact quoted_tiles _
  split
  · exact run_tiles _ _ _
  split
  · exact run_tiles _ _ _
  · exact mark_tiles _ _

theorem length_cut_rest_le (c : Char) (cs : List Char) : (cut c cs).rest.length ≤ cs.length := by
  have h := congrArg List.length (cut_tiles c cs)
  rw [List.length_append] at h
  omega

/-! ## The whole text -/

/-- The lexemes of a text, in order. -/
def split : List Char → List Lexeme
  | [] => []
  | c :: cs => ⟨(cut c cs).cls, c :: (cut c cs).more⟩ :: split (cut c cs).rest
termination_by cs => cs.length
decreasing_by
  have h := length_cut_rest_le c cs
  simp only [List.length_cons]
  omega

/-- The lexemes of a text make up the text. -/
theorem flatten_split (cs : List Char) : ((split cs).map Lexeme.text).flatten = cs := by
  fun_induction split cs with
  | case1 => rfl
  | case2 c cs ih => simp [ih, cut_tiles]

end Lexeme

end TinyPascal
