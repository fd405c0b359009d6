import Mathlib
import TinyPascal.Proofs.Grammar.Readers
import TinyPascal.Tree.Read

/-!
# `Proofs.Grammar.Cursor` — reading a vector of tokens by an index

The parsers take tokens off a list, and their types say that they end. This module writes the same
grammar down for a **cursor**: an index into a vector of tokens that is never cut. Nothing in its types
keeps the index in range or makes its loops and recursions end. Reading outside the vector stops a walk,
and a walk that does not end has no result. `Proofs.Grammar.Agreement` shows that it gives what the
parsers give.

## Contents
- **Walks.** `Walk`, `Halt`; `Round` and `Loop` for loops.
- **Single tokens.** `peek` and `advance`, and what is put together from them.
- **Grammar.** One walk for each rule, from `expression` to `program`; rules that call each other are the
  constructors of `ExprRule` and `StmtRule`. What a loop does in one round is a walk of its own.
- **Calls.** `calls n`: `n` programs one after the other.
-/

namespace TinyPascal
namespace Cursor

/-! ## Walks -/

/-- Why a walk gives no value. -/
inductive Halt where
  | rejected (e : SyntaxError)
  /-- A token outside the vector is read. -/
  | outOfRange
deriving DecidableEq, Repr

/-- A walk over a vector of tokens, from an index on: a value, or why there is none, and the index where
    it stopped. It is `none` if it does not end. -/
abbrev Walk := ReaderT (List Token) (ExceptT Halt (StateT Nat Option))

/-- How a round of a loop ends: the loop goes round again, or is left. -/
inductive Round (σ α : Type) where
  | again (state : σ)
  | leave (result : α)

/-- How a loop goes on behind a round. -/
def Round.goOn {σ α : Type} (more : σ → Walk α) : Round σ α → Walk α
  | .again next => more next
  | .leave result => return result

/-- A loop is its rounds, one after the other. -/
def IsLoop {σ α : Type} (more : σ → Walk α) (round : σ → Walk (Round σ α)) : Prop :=
  ∀ state, more state = (round state >>= Round.goOn more)

/-- A loop, given by its rounds. -/
structure Loop (σ α : Type) where
  round : σ → Walk (Round σ α)

/-- Rounds until the loop is left. -/
def Loop.run {σ α : Type} (l : Loop σ α) (state : σ) : Walk α := do
  match ← l.round state with
  | .again next => l |>.run next
  | .leave result => return result
partial_fixpoint

/-- A loop goes on as the walk that its rounds lead to. -/
theorem bind_goOn {σ α : Type} {round : Walk (Round σ α)} {f : Round σ α → Walk α} {more : σ → Walk α}
    (hagain : ∀ next, f (.again next) = more next) (hleave : ∀ result, f (.leave result) = pure result) :
    (round >>= f) = (round >>= Round.goOn more) := by
  congr 1
  funext r
  cases r with
  | again next => exact hagain next
  | leave result => exact hleave result

/-- The run of a loop unfolds into one round and the run behind it. -/
theorem Loop.isLoop_run {σ α : Type} (l : Loop σ α) : IsLoop l.run l.round := by
  intro state
  conv =>
    lhs
    rw [Loop.run]
  exact bind_goOn (fun _ => rfl) (fun _ => rfl)

/-! ## Single tokens -/

def tokenAt (i : Nat) : Walk Token := do
  match (← read)[i]? with
  | some t => return t
  | none => throw .outOfRange

/-- The token at the index, or the last one if the index is behind it. -/
def peek : Walk Token := do
  tokenAt (min (← get) ((← read).length - 1))

def peekKind : Walk Token.Kind :=
  return (← peek).kind

def currentSpan : Walk Span :=
  return (← peek).span

/-- The place of the token in front of the index. -/
def previousSpan : Walk Span :=
  return (← tokenAt ((← get) - 1)).span

/-- The token at the index, which goes on to the next one if there is one. -/
def advance : Walk Token := do
  let t ← peek
  if (← get) < (← read).length - 1 then
    modify (· + 1)
  return t

/-- Stop at the token at the index. -/
def reject {α : Type} (expected : String) : Walk α := do
  let t ← peek
  throw (.rejected ⟨expected, t.kind.text, t.span⟩)

def check (kind : Token.Kind) : Walk Bool :=
  return (← peekKind) = kind

/-- Take a token of the given kind, if it is the next one. -/
def matchToken (kind : Token.Kind) : Walk Bool := do
  if ← check kind then
    discard advance
    return true
  else
    return false

/-- Take a token of the given kind, or stop. -/
def expect (kind : Token.Kind) (expected : String) : Walk Unit := do
  if ← check kind then
    discard advance
  else
    reject expected

def expectIdentifier : Walk Ident := do
  match ← peekKind with
  | .ident name =>
    let span ← currentSpan
    discard advance
    return ⟨name, span⟩
  | _ => reject Expectation.identifier.describe

def typeName : Walk Ty := do
  match ← peekKind with
  | .keyword .integer =>
    discard advance
    return .integer
  | .keyword .boolean =>
    discard advance
    return .boolean
  | _ => reject Expectation.typeName.describe

/-! ## Rounds of rows and lists -/

/-- An operator of the given level and the operand behind it. -/
def rowRound (level : Token.Kind → Option BinOp) (operand : Walk Expr) (left : Expr) :
    Walk (Round Expr Expr) := do
  match level (← peekKind) with
  | none => return .leave left
  | some op =>
    discard advance
    return .again (.join op left (← operand))

/-- A mark and the item behind it. -/
def listRound {α : Type} (mark : Punct) (item : Walk α) (before : List α) :
    Walk (Round (List α) (List α)) := do
  if ← matchToken (.punct mark) then
    return .again (before ++ [← item])
  else
    return .leave before

/-- Items behind the first one, with a mark in front of each. -/
def items {α : Type} (mark : Punct) (item : Walk α) : Loop (List α) (List α) :=
  ⟨listRound mark item⟩

/-- The loop over the items of a list has the rounds of a list. -/
theorem isLoop_items {α : Type} (mark : Punct) (item : Walk α) :
    IsLoop (items mark item).run (listRound mark item) :=
  (items mark item).isLoop_run

/-- One or more items with marks between them. -/
def listOf {α : Type} (mark : Punct) (item : Walk α) : Walk (List α) := do
  (items mark item).run [← item]

/-! ## Expressions -/

open TinyPascal.Parser (relational? additive? multiplicative?)

/-- The rules of expressions, with the loops and rounds that they are read by. -/
inductive ExprRule where
  | expression
  | sum
  | sumLoop (left : Expr)
  | sumRound (left : Expr)
  | product
  | productLoop (left : Expr)
  | productRound (left : Expr)
  | factor
  | callArguments
  | optionalExpressions
  | expressionsLoop (before : List Expr)
  | expressionsRound (before : List Expr)

/-- What a rule gives. -/
@[reducible] def ExprRule.Value : ExprRule → Type
  | .expression | .sum | .sumLoop _ | .product | .productLoop _ | .factor => Expr
  | .sumRound _ | .productRound _ => Round Expr Expr
  | .callArguments | .optionalExpressions | .expressionsLoop _ => List Expr
  | .expressionsRound _ => Round (List Expr) (List Expr)

def ExprRule.walk : (rule : ExprRule) → Walk rule.Value
  | .expression => do
    let left ← ExprRule.sum |>.walk
    match relational? (← peekKind) with
    | none => return left
    | some op =>
      discard advance
      let right ← ExprRule.sum |>.walk
      return .join op left right
  | .sum => do
    let left ← ExprRule.product |>.walk
    ExprRule.sumLoop left |>.walk
  | .sumLoop left => do
    match ← (ExprRule.sumRound left |>.walk) with
    | .again next => ExprRule.sumLoop next |>.walk
    | .leave whole => return whole
  -- an additive operator and the product behind it
  | .sumRound left => do
    match additive? (← peekKind) with
    | none => return .leave left
    | some op =>
      discard advance
      let right ← ExprRule.product |>.walk
      return .again (.join op left right)
  | .product => do
    let left ← ExprRule.factor |>.walk
    ExprRule.productLoop left |>.walk
  | .productLoop left => do
    match ← (ExprRule.productRound left |>.walk) with
    | .again next => ExprRule.productLoop next |>.walk
    | .leave whole => return whole
  -- a multiplicative operator and the factor behind it
  | .productRound left => do
    match multiplicative? (← peekKind) with
    | none => return .leave left
    | some op =>
      discard advance
      let right ← ExprRule.factor |>.walk
      return .again (.join op left right)
  | .factor => do
    let start ← currentSpan
    match ← peekKind with
    | .ident _ =>
      let name ← expectIdentifier
      if ← check (.punct .lparen) then
        let args ← ExprRule.callArguments |>.walk
        return .call name args (start.merge (← previousSpan))
      else
        return .var name.name name.span
    | .int value =>
      discard advance
      return .int value start
    | .keyword .true | .keyword .false =>
      let t ← advance
      return .bool (t.kind = .keyword .true) start
    | .punct .lparen =>
      discard advance
      let inner ← ExprRule.expression |>.walk
      let stop ← currentSpan
      expect (.punct .rparen) Expectation.parenClose.describe
      return .paren inner (start.merge stop)
    | .keyword .not =>
      discard advance
      let operand ← ExprRule.factor |>.walk
      return .not operand (start.merge operand.span)
    | _ => reject Expectation.factor.describe
  -- both parentheses and what is between them
  | .callArguments => do
    expect (.punct .lparen) "'('"
    let args ← ExprRule.optionalExpressions |>.walk
    expect (.punct .rparen) Expectation.callClose.describe
    return args
  -- none in front of a closing parenthesis
  | .optionalExpressions => do
    if ← check (.punct .rparen) then
      return []
    else
      let first ← ExprRule.expression |>.walk
      ExprRule.expressionsLoop [first] |>.walk
  | .expressionsLoop before => do
    match ← (ExprRule.expressionsRound before |>.walk) with
    | .again next => ExprRule.expressionsLoop next |>.walk
    | .leave whole => return whole
  -- a comma and the expression behind it
  | .expressionsRound before => do
    if ← matchToken (.punct .comma) then
      let next ← ExprRule.expression |>.walk
      return .again (before ++ [next])
    else
      return .leave before
partial_fixpoint

abbrev expression : Walk Expr := ExprRule.expression.walk
abbrev sum : Walk Expr := ExprRule.sum.walk
abbrev sumLoop (left : Expr) : Walk Expr := (ExprRule.sumLoop left).walk
abbrev sumRound (left : Expr) : Walk (Round Expr Expr) := (ExprRule.sumRound left).walk
abbrev product : Walk Expr := ExprRule.product.walk
abbrev productLoop (left : Expr) : Walk Expr := (ExprRule.productLoop left).walk
abbrev productRound (left : Expr) : Walk (Round Expr Expr) := (ExprRule.productRound left).walk
abbrev factor : Walk Expr := ExprRule.factor.walk
abbrev callArguments : Walk (List Expr) := ExprRule.callArguments.walk
abbrev optionalExpressions : Walk (List Expr) := ExprRule.optionalExpressions.walk
abbrev expressionsLoop (before : List Expr) : Walk (List Expr) := (ExprRule.expressionsLoop before).walk
abbrev expressionsRound (before : List Expr) : Walk (Round (List Expr) (List Expr)) :=
  (ExprRule.expressionsRound before).walk

/-- The rounds of `sum` are those of a row of additive operators. -/
theorem sumRound_eq : sumRound = rowRound additive? product := by
  funext left
  rw [sumRound, ExprRule.walk, rowRound]

/-- The rounds of `product` are those of a row of multiplicative operators. -/
theorem productRound_eq : productRound = rowRound multiplicative? factor := by
  funext left
  rw [productRound, ExprRule.walk, rowRound]

/-- The rounds of `expressions` are those of a list with commas. -/
theorem expressionsRound_eq : expressionsRound = listRound .comma expression := by
  funext before
  rw [expressionsRound, ExprRule.walk, listRound]

theorem isLoop_sumLoop : IsLoop sumLoop sumRound := by
  intro left
  conv =>
    lhs
    rw [sumLoop, ExprRule.walk]
  exact bind_goOn (fun _ => rfl) (fun _ => rfl)

theorem isLoop_productLoop : IsLoop productLoop productRound := by
  intro left
  conv =>
    lhs
    rw [productLoop, ExprRule.walk]
  exact bind_goOn (fun _ => rfl) (fun _ => rfl)

theorem isLoop_expressionsLoop : IsLoop expressionsLoop expressionsRound := by
  intro before
  conv =>
    lhs
    rw [expressionsLoop, ExprRule.walk]
  exact bind_goOn (fun _ => rfl) (fun _ => rfl)

/-! ## Statements -/

/-- A statement of one keyword. -/
def keywordStatement (make : Span → Stmt) : Walk Stmt :=
  return make (← advance).span

def assignOrCall : Walk Stmt := do
  let target ← expectIdentifier
  if ← matchToken (.operator .assign) then
    let value ← expression
    return .assign target value (target.span.merge value.span)
  else if ← check (.punct .lparen) then
    let args ← callArguments
    return .call target args (target.span.merge (← previousSpan))
  else
    reject Expectation.assignOrCall.describe

def writeStatement : Walk Stmt := do
  let start ← currentSpan
  expect (.keyword .writeln) "'writeln'"
  expect (.punct .lparen) Expectation.writelnOpen.describe
  let args ← optionalExpressions
  let stop ← currentSpan
  expect (.punct .rparen) Expectation.writelnClose.describe
  return .write args (start.merge stop)

/-- The value of a `return`, which is missing where the statement ends. -/
def returnValue (start : Span) : Walk Stmt := do
  match ← peekKind with
  | .punct .semicolon | .keyword .end | .eof => return .return none (start.merge start)
  | _ =>
    let value ← expression
    return .return (some value) (start.merge value.span)

def returnStatement : Walk Stmt := do
  let start ← currentSpan
  expect (.keyword .return) "'return'"
  returnValue start

/-- The rules of statements that have blocks in them, with the loop and its rounds. -/
inductive StmtRule where
  | block
  | blockLoop (before : List Stmt)
  | blockRound (before : List Stmt)
  | statement
  | ifStatement
  | whileStatement

@[reducible] def StmtRule.Value : StmtRule → Type
  | .block => Block
  | .blockLoop _ => List Stmt
  | .blockRound _ => Round (List Stmt) (List Stmt)
  | .statement | .ifStatement | .whileStatement => Stmt

def StmtRule.walk : (rule : StmtRule) → Walk rule.Value
  | .block => do
    let start ← currentSpan
    expect (.keyword .begin) Expectation.blockBegin.describe
    let statements ← StmtRule.blockLoop [] |>.walk
    let stop ← currentSpan
    expect (.keyword .end) Expectation.blockEnd.describe
    return ⟨statements, start.merge stop⟩
  | .blockLoop before => do
    match ← (StmtRule.blockRound before |>.walk) with
    | .again next => StmtRule.blockLoop next |>.walk
    | .leave statements => return statements
  -- a semicolon, or a statement with or without one
  | .blockRound before => do
    if ← check (.keyword .end) then
      return .leave before
    else if ← matchToken (.punct .semicolon) then
      return .again before
    else
      let first ← StmtRule.statement |>.walk
      if ← matchToken (.punct .semicolon) then
        return .again (before ++ [first])
      else
        return .leave (before ++ [first])
  | .statement => do
    match ← peekKind with
    | .keyword .if => StmtRule.ifStatement |>.walk
    | .keyword .while => StmtRule.whileStatement |>.walk
    | .keyword .writeln => writeStatement
    | .keyword .return => returnStatement
    | .keyword .break => keywordStatement .break
    | .keyword .continue => keywordStatement .continue
    | .ident _ => assignOrCall
    | _ => reject Expectation.statement.describe
  | .ifStatement => do
    let start ← currentSpan
    expect (.keyword .if) "'if'"
    let cond ← expression
    expect (.keyword .then) Expectation.ifThen.describe
    let yes ← StmtRule.block |>.walk
    if ← matchToken (.keyword .else) then
      let no ← StmtRule.block |>.walk
      return .ifElse cond yes no (start.merge no.span)
    else
      return .ifThen cond yes (start.merge yes.span)
  | .whileStatement => do
    let start ← currentSpan
    expect (.keyword .while) "'while'"
    let cond ← expression
    expect (.keyword .do) Expectation.whileDo.describe
    let body ← StmtRule.block |>.walk
    return .while cond body (start.merge body.span)
partial_fixpoint

abbrev block : Walk Block := StmtRule.block.walk
abbrev blockLoop (before : List Stmt) : Walk (List Stmt) := (StmtRule.blockLoop before).walk
abbrev blockRound (before : List Stmt) : Walk (Round (List Stmt) (List Stmt)) :=
  (StmtRule.blockRound before).walk
abbrev statement : Walk Stmt := StmtRule.statement.walk
abbrev ifStatement : Walk Stmt := StmtRule.ifStatement.walk
abbrev whileStatement : Walk Stmt := StmtRule.whileStatement.walk

theorem isLoop_blockLoop : IsLoop blockLoop blockRound := by
  intro before
  conv =>
    lhs
    rw [blockLoop, StmtRule.walk]
  exact bind_goOn (fun _ => rfl) (fun _ => rfl)

/-! ## Declarations -/

/-- Names with commas between them. -/
def names : Walk (List Ident) :=
  listOf .comma expectIdentifier

def varDeclaration : Walk VarDecl := do
  let start ← currentSpan
  let declared ← names
  expect (.punct .colon) Expectation.varColon.describe
  let ty ← typeName
  let stop ← currentSpan
  expect (.punct .semicolon) Expectation.varSemicolon.describe
  return ⟨declared, ty, start.merge stop⟩

def param : Walk Param := do
  let start ← currentSpan
  let declared ← names
  expect (.punct .colon) Expectation.paramColon.describe
  let ty ← typeName
  return ⟨declared, ty, start.merge (← previousSpan)⟩

/-- Parameters with semicolons between them; none in front of a closing parenthesis. -/
def optionalParams : Walk (List Param) := do
  if ← check (.punct .rparen) then
    return []
  else
    listOf .semicolon param

/-- The parameters of a procedure, which may be left out with their parentheses. -/
def procedureParams : Walk (List Param) := do
  if ← matchToken (.punct .lparen) then
    let params ← optionalParams
    expect (.punct .rparen) Expectation.paramsClose.describe
    return params
  else
    return []

def procedureDeclaration : Walk Routine := do
  let start ← currentSpan
  expect (.keyword .procedure) "'procedure'"
  let name ← expectIdentifier
  let params ← procedureParams
  expect (.punct .semicolon) Expectation.procedureSemicolon.describe
  let body ← block
  let stop ← currentSpan
  expect (.punct .semicolon) Expectation.procedureEnd.describe
  return ⟨name, params, none, body, start.merge stop⟩

def functionDeclaration : Walk Routine := do
  let start ← currentSpan
  expect (.keyword .function) "'function'"
  let name ← expectIdentifier
  expect (.punct .lparen) Expectation.functionOpen.describe
  let params ← optionalParams
  expect (.punct .rparen) Expectation.paramsClose.describe
  expect (.punct .colon) Expectation.functionColon.describe
  let result ← typeName
  expect (.punct .semicolon) Expectation.functionSemicolon.describe
  let body ← block
  let stop ← currentSpan
  expect (.punct .semicolon) Expectation.functionEnd.describe
  return ⟨name, params, some result, body, start.merge stop⟩

/-- One line of variables; the loop goes round again if a name follows. -/
def linesRound (before : List Decl) : Walk (Round (List Decl) (List Decl)) := do
  let line ← varDeclaration
  match ← peekKind with
  | .ident _ => return .again (before ++ [.vars line])
  | _ => return .leave (before ++ [.vars line])

def lines : Loop (List Decl) (List Decl) :=
  ⟨linesRound⟩

theorem isLoop_lines : IsLoop lines.run linesRound :=
  lines.isLoop_run

/-- One `var` and its lines. -/
def sectionsRound (before : List Decl) : Walk (Round (List Decl) (List Decl)) := do
  if ← matchToken (.keyword .var) then
    return .again (← lines.run before)
  else
    return .leave before

def sections : Loop (List Decl) (List Decl) :=
  ⟨sectionsRound⟩

theorem isLoop_sections : IsLoop sections.run sectionsRound :=
  sections.isLoop_run

/-- One routine. -/
def routinesRound (before : List Decl) : Walk (Round (List Decl) (List Decl)) := do
  match ← peekKind with
  | .keyword .procedure => return .again (before ++ [.routine (← procedureDeclaration)])
  | .keyword .function => return .again (before ++ [.routine (← functionDeclaration)])
  | _ => return .leave before

def routines : Loop (List Decl) (List Decl) :=
  ⟨routinesRound⟩

theorem isLoop_routines : IsLoop routines.run routinesRound :=
  routines.isLoop_run

def globalDeclarations : Walk (List Decl) := do
  routines.run (← sections.run [])

def program : Walk Program := do
  let start ← currentSpan
  let declarations ← globalDeclarations
  let main ← block
  let stop ← currentSpan
  expect (.punct .dot) Expectation.programDot.describe
  return ⟨declarations, main, start.merge stop⟩

/-! ## Calls -/

/-- The answers to `n` calls one after the other, whether or not they fail, each with the index where it
    left the cursor. -/
def calls (v : List Token) : Nat → Nat → Option (List (Except Halt Program × Nat))
  | 0, _ => some []
  | n + 1, i => do
    let answer ← program v i
    let more ← calls v n answer.2
    return answer :: more

end Cursor
end TinyPascal
