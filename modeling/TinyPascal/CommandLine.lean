import TinyPascal.Code.Render
import TinyPascal.Compile
import TinyPascal.Tree.Dump

/-!
# `CommandLine` — requests and replies of `tpc`

```text
tpc lex <input>        tokens, one a line
tpc parse <input>      the tree
tpc check <input>      whether the program keeps all rules
tpc ir <input>         the code, as text or (--format list) as records
tpc --version
```

Everything but reading the input and writing the reply is a function of the arguments and the bytes of
the file.

## Contents
- **Requests.** `Request.ofArgs?` reads the arguments.
- **Replies.** `Command.output` is what a command prints for a source text, `respond` the whole reply.
-/

namespace TinyPascal

/-! ## Requests -/

/-- The written forms of code. -/
inductive Format where
  | tac | list
deriving DecidableEq, Repr

def Format.ofString? : String → Option Format
  | "tac" => some .tac
  | "list" => some .list
  | _ => none

/-- What to do with a source text. -/
inductive Command where
  | lex | parse | check
  | ir (format : Format)
deriving DecidableEq, Repr

/-- What is asked for. -/
inductive Request where
  | version
  | run (command : Command) (input : String)
deriving DecidableEq, Repr

namespace Request

/-- The inputs and the format that were met so far. -/
structure Options where
  inputs : List String := []
  format : Option Format := none

/-- Take further inputs. -/
def Options.addInputs (o : Options) (inputs : List String) : Options :=
  { o with inputs := o.inputs ++ inputs }

/-- Take the format, which must be a known one and may be given once. -/
def Options.setFormat? (o : Options) (value : String) : Option Options :=
  match o.format, Format.ofString? value with
  | none, some format => some { o with format := some format }
  | _, _ => none

/-- What is left of `arg` after `stem`, if it starts with it. -/
def after? (stem arg : String) : Option String :=
  if stem.toList.isPrefixOf arg.toList then
    some (String.ofList (arg.toList.drop stem.length))
  else none

/-- An argument that starts with a dash is an option, except the dash alone. -/
def isOption (arg : String) : Bool :=
  arg != "-" && (after? "-" arg).isSome

/-- The value that is written in one argument with the format option. -/
def attachedFormat? (arg : String) : Option String :=
  (after? "--format=" arg).or ((after? "-f=" arg).or (after? "-f" arg))

/-- Read the arguments of a command; `formatted` says whether it takes a format. Two dashes end the
    options. -/
def options? (formatted : Bool) (o : Options) : List String → Option Options
  | [] => some o
  | arg :: rest =>
    if arg = "--" then some (o.addInputs rest)
    else if !isOption arg then options? formatted (o.addInputs [arg]) rest
    else if !formatted then none
    else if arg = "--format" || arg = "-f" then
      match rest with
      | [] => none
      | value :: rest' =>
        match o.setFormat? value with
        | none => none
        | some o' => options? formatted o' rest'
    else
      match (attachedFormat? arg).bind o.setFormat? with
      | none => none
      | some o' => options? formatted o' rest

/-- The one input of a command; it has a name. -/
def Options.input? (o : Options) : Option String :=
  match o.inputs with
  | [input] => if input = "" then none else some input
  | _ => none

/-- A command that takes an input and no options. -/
def plain? (command : Command) (args : List String) : Option Request := do
  let o ← options? false {} args
  return .run command (← o.input?)

/-- The request that the arguments make, if they make one. The flag `-V` counts even if other letters
    follow it in the same argument. -/
def ofArgs? : List String → Option Request
  | [] => none
  | "lex" :: args => plain? .lex args
  | "parse" :: args => plain? .parse args
  | "check" :: args => plain? .check args
  | "ir" :: args => do
    let o ← options? true {} args
    return .run (.ir (o.format.getD .tac)) (← o.input?)
  | arg :: _ => if arg = "--version" || (after? "-V" arg).isSome then some .version else none

end Request

/-! ## Replies -/

/-- Why an input cannot be read. -/
inductive ReadError where
  | notFound | isDirectory | notADirectory | notText
  | other (reason : String)
deriving DecidableEq, Repr

def ReadError.reason : ReadError → String
  | .notFound => "No such file or directory (os error 2)"
  | .isDirectory => "Is a directory (os error 21)"
  | .notADirectory => "Not a directory (os error 20)"
  | .notText => "stream did not contain valid UTF-8"
  | .other reason => reason

/-- The exit code and the texts that a run writes. -/
structure Reply where
  exit : Nat
  stdout : String := ""
  stderr : String := ""
deriving DecidableEq, Repr

/-- A token in a listing: its place, its category and its text. -/
def Token.line (t : Token) : String :=
  s!"{t.span.line}:{t.span.column}\t{t.kind.category.title}\t{t.kind.text}"

/-- Code in the given form. -/
def Format.render : Format → List Instr → String
  | .tac => renderTac
  | .list => renderList

/-- What a command prints for a source text. -/
def Command.output (source : String) : Command → Except Error String
  | .lex => return unlines ((← TinyPascal.lex source).toList.map Token.line)
  | .parse => return (← TinyPascal.parse source).dump.text "" ++ "\n"
  | .check => do
    discard <| TinyPascal.check source
    return "No semantic errors.\n"
  | .ir format => return format.render (← compile source)

/-- The text of a file that was read. -/
def decode (bytes : Except ReadError ByteArray) : Except ReadError String := do
  match String.fromUTF8? (← bytes) with
  | some source => return source
  | none => throw .notText

/-- The reply to a command on the input that was read. -/
def Command.reply (command : Command) (input : String) (bytes : Except ReadError ByteArray) : Reply :=
  match decode bytes with
  | .error e => { exit := 74, stderr := s!"Error reading '{input}': {e.reason}\n" }
  | .ok source =>
    match command.output source with
    | .ok text => { exit := 0, stdout := text }
    | .error e => { exit := 65, stderr := e.message ++ "\n" }

/-- How `tpc` is called. -/
def usage : String :=
  "usage: tpc lex|parse|check|ir <input> [--format tac|list]\n"

/-- The reply to a request; `none` stands for arguments that make none. -/
def respond (request : Option Request) (bytes : Except ReadError ByteArray) : Reply :=
  match request with
  | none => { exit := 64, stderr := usage }
  | some .version => { exit := 0, stdout := "tpc 0.1.0\n" }
  | some (.run command input) => command.reply input bytes

/-- The file that a request needs. -/
def Request.input? : Request → Option String
  | .version => none
  | .run _ input => some input

end TinyPascal
