import TinyPascal.Source.Span

/-!
# `Token.Basic` — the words of the language

## Contents
- **Word classes.** `Keyword`, `Operator` and `Punct` list the fixed words with their spellings;
  `Keyword.ofString?` looks a word up in any letter case.
- **Tokens.** `Token.Kind` is what a token is, its value included; a `Token` is a kind with the place
  where it was written.
- **Text.** `Kind.text` is how a token is quoted in messages and listings, `Kind.category` the class
  that it is listed under.
-/

namespace TinyPascal

/-! ## Word classes -/

/-- The reserved words. -/
inductive Keyword where
  | var | integer | boolean | procedure | function | begin | end
  | if | then | else | while | do | writeln | break | continue | return
  | true | false | not | and | or
deriving DecidableEq, Repr

namespace Keyword

/-- Every reserved word, each once. -/
def all : List Keyword :=
  [.var, .integer, .boolean, .procedure, .function, .begin, .end, .if, .then, .else, .while, .do,
   .writeln, .break, .continue, .return, .true, .false, .not, .and, .or]

/-- The lower-case spelling. -/
def spelling : Keyword → String
  | .var => "var"
  | .integer => "integer"
  | .boolean => "boolean"
  | .procedure => "procedure"
  | .function => "function"
  | .begin => "begin"
  | .end => "end"
  | .if => "if"
  | .then => "then"
  | .else => "else"
  | .while => "while"
  | .do => "do"
  | .writeln => "writeln"
  | .break => "break"
  | .continue => "continue"
  | .return => "return"
  | .true => "true"
  | .false => "false"
  | .not => "not"
  | .and => "and"
  | .or => "or"

/-- The word with its ASCII capitals made small; other characters stay. -/
def fold (word : String) : String :=
  String.ofList (word.toList.map Char.toLower)

/-- The reserved word spelled `word`, in any mix of ASCII letter cases. -/
def ofString? (word : String) : Option Keyword :=
  all.find? (fun k => k.spelling = fold word)

theorem mem_all (k : Keyword) : k ∈ all := by
  cases k <;> decide

end Keyword

/-- Operators, the assignment arrow included. -/
inductive Operator where
  | assign | plus | minus | star | slash | eq | notEq | lt | ltEq | gt | gtEq
deriving DecidableEq, Repr

namespace Operator

def spelling : Operator → String
  | .assign => ":="
  | .plus => "+"
  | .minus => "-"
  | .star => "*"
  | .slash => "/"
  | .eq => "="
  | .notEq => "<>"
  | .lt => "<"
  | .ltEq => "<="
  | .gt => ">"
  | .gtEq => ">="

end Operator

/-- Punctuation marks. -/
inductive Punct where
  | semicolon | comma | dot | lparen | rparen | colon
deriving DecidableEq, Repr

namespace Punct

def spelling : Punct → String
  | .semicolon => ";"
  | .comma => ","
  | .dot => "."
  | .lparen => "("
  | .rparen => ")"
  | .colon => ":"

end Punct

/-! ## Tokens -/

/-- What a token is, together with the value that it carries. -/
inductive Token.Kind where
  | int (value : Int)
  | str (content : String)
  | ident (name : String)
  | keyword (word : Keyword)
  | operator (op : Operator)
  | punct (mark : Punct)
  | eof
deriving DecidableEq, Repr

/-- A token and the place where it was written. -/
structure Token where
  kind : Token.Kind
  span : Span
deriving DecidableEq, Repr

namespace Token

/-- The classes under which tokens are listed. -/
inductive Category where
  | keyword | identifier | number | string | operator | punctuation | endOfStream
deriving DecidableEq, Repr

/-- The heading of a category in a listing. -/
def Category.title : Category → String
  | .keyword => "Keyword"
  | .identifier => "Identifier"
  | .number => "Number"
  | .string => "String"
  | .operator => "Operator"
  | .punctuation => "Punctuation"
  | .endOfStream => "EndOfStream"

namespace Kind

def category : Kind → Category
  | .int _ => .number
  | .str _ => .string
  | .ident _ => .identifier
  | .keyword _ => .keyword
  | .operator _ => .operator
  | .punct _ => .punctuation
  | .eof => .endOfStream

/-- How a token is quoted in messages and listings. A string stands between quotes as it is, with the
    quotes inside it not doubled. -/
def text : Kind → String
  | .int n => n.repr
  | .str s => "'" ++ s ++ "'"
  | .ident name => name
  | .keyword k => k.spelling
  | .operator o => o.spelling
  | .punct p => p.spelling
  | .eof => "end-of-stream"

/-- The kind of a word: reserved if it spells a keyword, an identifier otherwise. -/
def ofWord (word : String) : Kind :=
  match Keyword.ofString? word with
  | some k => .keyword k
  | none => .ident word

end Kind

end Token

end TinyPascal
