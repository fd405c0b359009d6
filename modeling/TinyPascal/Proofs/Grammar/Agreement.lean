import TinyPascal.Proofs.Grammar.Following

/-!
# `Proofs.Grammar.Agreement` — a cursor reads what the parsers read

Every walk of the grammar follows the parser of the same rule. Recursions and loops are followed by
induction on the number of tokens that are left: that number bounds them, and the walks do not know it.

## Contents
- **Rows and lists.** One lemma each for loops over operands, over items with marks, and for lists that may
  be missing.
- **Expressions**, **statements**, **declarations**, up to `follows_program`.
-/

namespace TinyPascal
namespace Cursor

open TinyPascal.Parser (Reader relational? additive? multiplicative?)
open TinyPascal.Parser.Reader (done fail andThen branch ahead on onOp andThen_assoc done_andThen andThen_done
  on_andThen ahead_andThen)

/-! ## Rows and lists -/

section Rows

variable {s : Stream} {n : Nat}

/-- A round over operands: an operator and its operand, or the end of the row. -/
theorem rowRound_bind {α : Type} {level : Token.Kind → Option BinOp} {operand : Walk Expr} {left : Expr}
    {f : Round Expr Expr → Walk α} :
    (rowRound level operand left >>= f) = (peekKind >>= fun kind =>
      match level kind with
      | none => f (.leave left)
      | some op =>
        discard advance >>= fun _ => operand >>= fun right => f (.again (.join op left right))) := by
  rw [rowRound, bind_assoc]
  congr 1
  funext kind
  cases level kind with
  | none => rfl
  | some op => simp only [bind_assoc, pure_bind]

/-- A row of operands, by induction on the number of tokens: an operator is taken in front of each operand. -/
theorem follows_rowTail {level : Token.Kind → Option BinOp}
    {operand : (ts : List Token) → Parser.Outcome Expr ts.length}
    {tail : Expr → (ts : List Token) → Parser.Outcome Expr (ts.length + 1)} {walk : Walk Expr}
    {more : Expr → Walk Expr} (hlevel : level .eof = none)
    (htail : ∀ left, tail left = Parser.rowNext level operand tail left)
    (hmore : IsLoop more (rowRound level walk)) (h : Follows s n (Reader.of operand) walk)
    (left : Expr) : Follows s n (Reader.of (tail left)) (more left) := by
  induction n using Nat.strongRecOn generalizing left with
  | ind n ih =>
      rw [htail left, Parser.of_rowNext, hmore left, rowRound_bind]
      refine .onOp hlevel (fun op m hm => ?_) .done
      have hwalk := h.mono (Nat.le_of_lt hm)
      exact .andThen hwalk (fun right => ih m hm hwalk (.join op left right))

/-- A round over items: a mark and the next item, or the end of the list. -/
theorem listRound_bind {α β : Type} {mark : Punct} {item : Walk β} {before : List β}
    {f : Round (List β) (List β) → Walk α} :
    (listRound mark item before >>= f) = (matchToken (.punct mark) >>= fun found =>
      if found = true then item >>= fun next => f (.again (before ++ [next]))
      else f (.leave before)) := by
  rw [listRound, bind_assoc]
  congr 1
  funext found
  cases found with
  | true => simp only [if_true, bind_assoc, pure_bind]
  | false => rfl

section Lists

variable {α : Type} {mark : Punct} {item : (ts : List Token) → Parser.Outcome α ts.length}
  {items : (ts : List Token) → Parser.Outcome (List α) ts.length} {walk : Walk α}
  {more : List α → Walk (List α)}

/-- A list with marks, by induction on the number of tokens: a mark is taken in front of each item but the
    first. -/
theorem follows_listFrom (hitems : items = Parser.listStep mark item items)
    (hmore : IsLoop more (listRound mark walk)) (h : Follows s n (Reader.of item) walk)
    (before : List α) :
    Follows s n (andThen (Reader.of items) (fun later => done (before ++ later)))
      (walk >>= fun first => more (before ++ [first])) := by
  induction n using Nat.strongRecOn generalizing before with
  | ind n ih =>
      rw [hitems, Parser.of_listStep, andThen_assoc]
      refine .andThen h (fun first => ?_)
      rw [on_andThen, hmore, listRound_bind]
      refine .matchToken (fun _ m hm => ?_) .done
      have hrest := ih m hm (h.mono (Nat.le_of_lt hm)) (before ++ [first])
      simpa only [andThen_assoc, done_andThen, List.append_assoc, List.singleton_append,
        Round.goOn] using hrest

/-- Items between marks: the first one, and then a round for each mark. -/
theorem follows_list (hitems : items = Parser.listStep mark item items)
    (hmore : IsLoop more (listRound mark walk)) (h : Follows s n (Reader.of item) walk) :
    Follows s n (Reader.of items) (walk >>= fun first => more [first]) := by
  have hlist := follows_listFrom hitems hmore h []
  simpa only [List.nil_append, andThen_done] using hlist

theorem follows_listOf (hitems : items = Parser.listStep mark item items)
    (h : Follows s n (Reader.of item) walk) : Follows s n (Reader.of items) (listOf mark walk) :=
  follows_list hitems (isLoop_items mark walk) h

end Lists

/-- A list that may be missing in front of the closing parenthesis, and the parenthesis. -/
theorem follows_optional {α β : Type} {items : (ts : List Token) → Parser.Outcome (List β) ts.length}
    {list : Walk (List β)} {close : Expectation} {k : List β → Span → Reader α}
    {f : List β → Walk α} (hlist : Follows s n (Reader.of items) list)
    (hclose : ∀ read, Follows s n
      (andThen (Reader.of (Parser.expect (.punct .rparen) close)) (k read)) (f read)) :
    Follows s n (branch (on (.punct .rparen) (k []))
      (andThen (Reader.of items) (fun read =>
        andThen (Reader.of (Parser.expect (.punct .rparen) close)) (k read))))
      ((check (.punct .rparen) >>= fun found => if found = true then pure [] else list) >>= f) := by
  have hwalk : ((check (.punct .rparen) >>= fun found => if found = true then pure [] else list) >>= f) =
      (check (.punct .rparen) >>= fun found => if found = true then f [] else list >>= f) := by
    rw [bind_assoc]
    congr 1
    funext found
    cases found with
    | true => rfl
    | false => rfl
  rw [hwalk]
  refine .check (fun span => ?_) (.andThen hlist hclose)
  exact .of_expect (hclose [])

end Rows

/-! ## Expressions -/

section Expressions

variable {s : Stream} {n : Nat}

theorem follows_expressions (h : Follows s n (Reader.of Parser.expression) expression) :
    Follows s n (Reader.of Parser.expressions) (expression >>= fun first => expressionsLoop [first]) := by
  have hloop := isLoop_expressionsLoop
  rw [expressionsRound_eq] at hloop
  exact follows_list Parser.expressions_eq_listStep hloop h

/-- Arguments in parentheses, and what comes behind them. -/
theorem follows_arguments {α : Type} {close : Expectation} {k : List Expr × Span → Reader α}
    {f : List Expr → Walk α} (h : Follows s n (Reader.of Parser.expression) expression)
    (hclose : ∀ args, Follows s n (andThen (Reader.of (Parser.expect (.punct .rparen) close))
      (fun stop => k (args, stop))) (f args)) :
    Follows s n (andThen (Reader.of (Parser.arguments close)) k) (optionalExpressions >>= f) := by
  have hlist := follows_expressions h
  rw [Parser.of_arguments, on_andThen, optionalExpressions, ExprRule.walk]
  simp only [andThen_assoc, done_andThen]
  exact follows_optional hlist hclose

/-- A call, behind its name: the parenthesis is seen and then taken. -/
theorem follows_callArguments {α : Type} {k : List Expr × Span → Reader α}
    {f : List Expr → Span → Walk α} {no : Reader α} {span : Span}
    (h : ∀ m < n, Follows s m (Reader.of Parser.expression) expression)
    (hf : ∀ args stop, ∀ m < n, Follows s m (k (args, stop)) (f args stop)) :
    FollowsAt s n ⟨.punct .lparen, span⟩
      (branch (on (.punct .lparen) (fun _ =>
        andThen (Reader.of (Parser.arguments .callClose)) k)) no)
      (callArguments >>= fun args => previousSpan >>= f args) := by
  rw [callArguments, ExprRule.walk]
  simp only [bind_assoc, pure_bind]
  refine .expect (if_pos rfl) (fun m hm => ?_)
  refine follows_arguments (h m hm) (fun args => ?_)
  exact .expectBehind (fun stop l hl => hf args stop l (by omega))

theorem follows_product (h : Follows s n (Reader.of Parser.factor) factor) :
    Follows s n (Reader.of Parser.product) product := by
  rw [Parser.product_eq_rowStart, Parser.of_rowStart, product, ExprRule.walk]
  have hloop := isLoop_productLoop
  rw [productRound_eq] at hloop
  exact .andThen h (follows_rowTail rfl Parser.productTail_eq_rowNext hloop h)

theorem follows_sum (h : Follows s n (Reader.of Parser.product) product) :
    Follows s n (Reader.of Parser.sum) sum := by
  rw [Parser.sum_eq_rowStart, Parser.of_rowStart, sum, ExprRule.walk]
  have hloop := isLoop_sumLoop
  rw [sumRound_eq] at hloop
  exact .andThen h (follows_rowTail rfl Parser.sumTail_eq_rowNext hloop h)

theorem follows_expression (h : Follows s n (Reader.of Parser.sum) sum) :
    Follows s n (Reader.of Parser.expression) expression := by
  rw [Parser.of_expression, expression, ExprRule.walk]
  refine .andThen h (fun left => .onOp rfl (fun op m hm => ?_) .done)
  exact .andThen (h.mono (Nat.le_of_lt hm)) (fun _ => .done)

/-- Factors, from what is known of fewer tokens. -/
theorem follows_factor (ih : ∀ m < n, Follows s m (Reader.of Parser.factor) factor ∧
    Follows s m (Reader.of Parser.expression) expression) :
    Follows s n (Reader.of Parser.factor) factor := by
  rw [Parser.of_factor, factor, ExprRule.walk]
  rintro ⟨kind, start⟩
  refine .currentSpan (.peekKind ?_)
  cases kind with
  | int value => exact .discard rfl (fun _ _ => .done)
  | ident name =>
      refine .expectIdentifier rfl (fun m hm => ?_)
      refine .check (fun span => ?_) .done
      have hexpr : ∀ l < m, Follows s l (Reader.of Parser.expression) expression :=
        fun l hl => (ih l (Nat.lt_trans hl hm)).2
      exact follows_callArguments hexpr (fun _ _ _ _ => .done)
  | keyword word =>
      cases word with
      | true => exact .advance rfl (fun _ _ => .done)
      | false => exact .advance rfl (fun _ _ => .done)
      | not => exact .discard rfl (fun m hm => .andThen (ih m hm).1 (fun _ => .done))
      | _ => exact .pass rfl (Follows.fail _)
  | punct mark =>
      cases mark with
      | lparen =>
          refine .discard rfl (fun m hm => .andThen (ih m hm).2 (fun inner => ?_))
          exact .expectAt (fun _ _ _ => .done)
      | _ => exact .pass rfl (Follows.fail _)
  | _ => exact .pass rfl (Follows.fail _)

/-- Expressions, by induction on the number of tokens. -/
theorem follows_exprs (s : Stream) (n : Nat) : Follows s n (Reader.of Parser.factor) factor ∧
    Follows s n (Reader.of Parser.expression) expression := by
  induction n using Nat.strongRecOn with
  | ind n ih =>
      have hfactor := follows_factor ih
      exact ⟨hfactor, follows_expression (follows_sum (follows_product hfactor))⟩

theorem follows_expr (s : Stream) (n : Nat) :
    Follows s n (Reader.of Parser.expression) expression :=
  (follows_exprs s n).2

end Expressions

/-! ## Statements -/

section Statements

variable {s : Stream} {n : Nat}

theorem follows_assignOrCall {name : String} {start : Span} :
    FollowsAt s n ⟨.ident name, start⟩ (branch Parser.statementBehind (fail .statement))
      assignOrCall := by
  rw [assignOrCall]
  refine .expectIdentifier rfl (fun m hm => ?_)
  rw [Parser.of_assignOrCall]
  refine .matchToken (fun _ l _ => .andThen (follows_expr s l) (fun _ => .done)) ?_
  refine .check (fun span => ?_) .fail
  exact follows_callArguments (fun l _ => follows_expr s l) (fun _ _ _ _ => .done)

theorem follows_writeStatement {start : Span} :
    FollowsAt s n ⟨.keyword .writeln, start⟩ (branch Parser.statementBehind (fail .statement))
      writeStatement := by
  rw [writeStatement]
  refine .currentSpan (.expect rfl (fun m hm => ?_))
  rw [Parser.of_written]
  refine .expect (fun _ l hl => ?_)
  refine follows_arguments (follows_expr s l) (fun args => ?_)
  exact .expectAt (fun _ _ _ => .done)

/-- A `return` has a value unless its statement ends. -/
theorem follows_returnValue (start : Span) :
    Follows s n (Reader.of (Parser.returned start)) (returnValue start) := by
  rw [Parser.of_returned, returnValue]
  simp only [Span.merge_self]
  rintro ⟨kind, span⟩
  have hnone : FollowsAt s n ⟨kind, span⟩ (done (Stmt.return none start)) (pure (.return none start)) :=
    Follows.done _
  have hsome := Follows.andThen (follows_expr s n)
    (fun value => Follows.done (v := Stmt.return (some value) (start.merge value.span))) ⟨kind, span⟩
  refine .ahead (.peekKind ?_) ?_
  · cases kind with
    | keyword word =>
        cases word with
        | «end» => exact hnone
        | _ => exact hsome
    | punct mark =>
        cases mark with
        | semicolon => exact hnone
        | _ => exact hsome
    | eof => exact hnone
    | _ => exact hsome
  · rintro rfl
    rfl

theorem follows_returnStatement {start : Span} :
    FollowsAt s n ⟨.keyword .return, start⟩ (branch Parser.statementBehind (fail .statement))
      returnStatement := by
  rw [returnStatement]
  exact .currentSpan (.expect rfl (fun m hm => follows_returnValue start))

/-- An `if`; its blocks have fewer tokens. -/
theorem follows_ifStatement {start : Span}
    (hblock : ∀ m < n, Follows s m (Reader.of Parser.block) block) :
    FollowsAt s n ⟨.keyword .if, start⟩ (branch Parser.statementBehind (fail .statement))
      ifStatement := by
  rw [ifStatement, StmtRule.walk]
  refine .currentSpan (.expect rfl (fun m hm => ?_))
  refine .andThen (follows_expr s m) (fun cond => .expect (fun _ l hl => ?_))
  refine .andThen (hblock l (by omega)) (fun yes => ?_)
  refine .matchToken (fun _ k hk => ?_) .done
  exact .andThen (hblock k (by omega)) (fun _ => .done)

/-- A `while`; its body has fewer tokens. -/
theorem follows_whileStatement {start : Span}
    (hblock : ∀ m < n, Follows s m (Reader.of Parser.block) block) :
    FollowsAt s n ⟨.keyword .while, start⟩ (branch Parser.statementBehind (fail .statement))
      whileStatement := by
  rw [whileStatement, StmtRule.walk]
  refine .currentSpan (.expect rfl (fun m hm => ?_))
  refine .andThen (follows_expr s m) (fun cond => .expect (fun _ l hl => ?_))
  exact .andThen (hblock l (by omega)) (fun _ => .done)

/-- Statements, from what is known of blocks with fewer tokens. -/
theorem follows_statement (hblock : ∀ m < n, Follows s m (Reader.of Parser.block) block) :
    Follows s n (Reader.of Parser.statement) statement := by
  rw [Parser.of_statement, statement, StmtRule.walk]
  rintro ⟨kind, start⟩
  refine .peekKind ?_
  cases kind with
  | ident name => exact follows_assignOrCall
  | keyword word =>
      cases word with
      | «if» => exact follows_ifStatement hblock
      | «while» => exact follows_whileStatement hblock
      | writeln => exact follows_writeStatement
      | «return» => exact follows_returnStatement
      | «break» => exact .advance rfl (fun _ _ => .done)
      | «continue» => exact .advance rfl (fun _ _ => .done)
      | _ => exact .pass rfl (Follows.fail _)
  | _ => exact .pass rfl (Follows.fail _)

/-- A round of a block: its `end`, an empty statement, or a statement and the semicolon behind it. -/
theorem blockRound_bind {α : Type} {before : List Stmt} {f : Round (List Stmt) (List Stmt) → Walk α} :
    (blockRound before >>= f) = (check (.keyword .end) >>= fun found =>
      if found = true then f (.leave before)
      else matchToken (.punct .semicolon) >>= fun found =>
        if found = true then f (.again before)
        else statement >>= fun first => matchToken (.punct .semicolon) >>= fun found =>
          if found = true then f (.again (before ++ [first]))
          else f (.leave (before ++ [first]))) := by
  rw [blockRound, StmtRule.walk, bind_assoc]
  congr 1
  funext ends
  cases ends with
  | true => rfl
  | false =>
      simp only [Bool.false_eq_true, if_false, bind_assoc]
      congr 1
      funext empty
      cases empty with
      | true => rfl
      | false =>
          simp only [Bool.false_eq_true, if_false, bind_assoc]
          congr 1
          funext first
          congr 1
          funext more
          cases more with
          | true => rfl
          | false => rfl

/-- The rest of a block, by induction on the number of tokens. -/
theorem follows_statements {α : Type} {k : List Stmt × Span → Reader α} {f : List Stmt → Walk α}
    (hstmt : Follows s n (Reader.of Parser.statement) statement)
    (hclose : ∀ body, Follows s n (andThen (Reader.of (Parser.expect (.keyword .end) .blockEnd))
      (fun stop => k (body, stop))) (f body))
    (before : List Stmt) :
    Follows s n (andThen (Reader.of Parser.statements) (fun v => k (before ++ v.1, v.2)))
      (blockLoop before >>= f) := by
  induction n using Nat.strongRecOn generalizing before with
  | ind n ih =>
      have hmore : ∀ m < n, ∀ before, Follows s m
          (andThen (Reader.of Parser.statements) (fun v => k (before ++ v.1, v.2)))
          (blockLoop before >>= f) := by
        intro m hm
        exact ih m hm (hstmt.mono (Nat.le_of_lt hm)) (fun body => (hclose body).mono (Nat.le_of_lt hm))
      rw [Parser.of_statements, isLoop_blockLoop before, bind_assoc, blockRound_bind]
      simp only [on_andThen, andThen_assoc, done_andThen, List.append_nil, Round.goOn, pure_bind]
      refine .check (fun span => .of_expect (hclose before)) ?_
      refine .matchToken (fun _ m hm => hmore m hm before) ?_
      refine .andThen hstmt (fun first => .matchToken (fun _ m hm => ?_) (hclose _))
      simpa only [List.append_assoc, List.singleton_append] using hmore m hm (before ++ [first])

/-- Blocks, by induction on the number of tokens. -/
theorem follows_block (s : Stream) (n : Nat) : Follows s n (Reader.of Parser.block) block := by
  induction n using Nat.strongRecOn with
  | ind n ih =>
      rw [Parser.of_block, block, StmtRule.walk]
      refine .expectAt (fun start m hm => ?_)
      have hstmt : Follows s m (Reader.of Parser.statement) statement :=
        follows_statement (fun l hl => ih l (Nat.lt_trans hl hm))
      refine follows_statements (k := fun v => done (Block.mk v.1 (start.merge v.2))) hstmt (fun body => ?_) []
      exact .expectAt (fun _ _ _ => .done)

end Statements

/-! ## Declarations -/

section Declarations

variable {s : Stream} {n : Nat}

theorem follows_identifier (s : Stream) (n : Nat) :
    Follows s n (Reader.of Parser.identifier) expectIdentifier := by
  have h : Follows s n (andThen (Reader.of Parser.identifier) done) (expectIdentifier >>= pure) :=
    .expectIdentifier (fun _ _ _ => .done)
  rwa [andThen_done, bind_pure] at h

theorem follows_names (s : Stream) (n : Nat) : Follows s n (Reader.of Parser.names) names :=
  follows_listOf Parser.names_eq_listStep (follows_identifier s n)

theorem names_nil {α : Type} {k : List Ident → Reader α} :
    andThen (Reader.of Parser.names) k [] = (.error .identifier, []) := by
  rw [Parser.names_eq_listStep, Parser.of_listStep, Parser.of_identifier]
  rfl

theorem follows_varDeclaration (s : Stream) (n : Nat) :
    Follows s n (Reader.of Parser.varLine) varDeclaration := by
  rw [Parser.of_varLine, varDeclaration]
  intro t
  refine .ahead (.currentSpan ?_) (fun _ => names_nil.trans names_nil.symm)
  refine Follows.andThen (follows_names s n) (fun declared => ?_) t
  refine .expect (fun _ m hm => .typeName (fun ty _ l hl => ?_))
  exact .expectAt (fun _ _ _ => .done)

theorem follows_param (s : Stream) (n : Nat) : Follows s n (Reader.of Parser.param) param := by
  rw [Parser.of_param, param]
  intro t
  refine .ahead (.currentSpan ?_) (fun _ => names_nil.trans names_nil.symm)
  refine Follows.andThen (follows_names s n) (fun declared => ?_) t
  exact .expect (fun _ m hm => .typeBehind (fun ty _ l hl => .done))

/-- Parameters, which may be missing, and the parenthesis behind them. -/
theorem follows_params {α : Type} {k : List Param → Reader α} {f : List Param → Walk α}
    (h : ∀ groups, ∀ m < n, Follows s m (k groups) (f groups)) :
    Follows s n (andThen (Reader.of Parser.params) k) (optionalParams >>= fun groups =>
      expect (.punct .rparen) Expectation.paramsClose.describe >>= fun _ => f groups) := by
  have hlist : Follows s n (Reader.of Parser.paramGroups) (listOf .semicolon param) :=
    follows_listOf Parser.paramGroups_eq_listStep (follows_param s n)
  rw [Parser.of_params, on_andThen, optionalParams]
  simp only [andThen_assoc, done_andThen]
  exact follows_optional (k := fun groups _ => k groups) hlist
    (fun groups => .expect (fun _ => h groups))

theorem follows_procedureParams (s : Stream) (n : Nat) :
    Follows s n (Reader.of Parser.procedureParams) procedureParams := by
  rw [Parser.of_procedureParams, procedureParams]
  refine .matchToken (fun _ m hm => ?_) .done
  have h : Follows s m (andThen (Reader.of Parser.params) done) _ :=
    follows_params (fun groups _ _ => .done)
  rwa [andThen_done] at h

/-- A procedure behind its word. -/
theorem follows_procedureDeclaration {α : Type} {k : Routine → Reader α} {f : Routine → Walk α}
    {no : Reader α} {start : Span} (h : ∀ r, ∀ m < n, Follows s m (k r) (f r)) :
    FollowsAt s n ⟨.keyword .procedure, start⟩
      (branch (on (.keyword .procedure) (fun start =>
        andThen (Reader.of (Parser.procedure start)) k)) no)
      (procedureDeclaration >>= f) := by
  rw [procedureDeclaration]
  simp only [bind_assoc, pure_bind]
  refine .currentSpan (.expect (if_pos rfl) (fun m hm => ?_))
  show Follows s m (andThen (Reader.of (Parser.procedure start)) k) _
  rw [Parser.of_procedure]
  simp only [andThen_assoc, done_andThen]
  refine .expectIdentifier (fun name l hl => ?_)
  refine .andThen (follows_procedureParams s l) (fun groups => .expect (fun _ l' hl' => ?_))
  refine .andThen (follows_block s l') (fun body => .expectAt (fun _ k hk => ?_))
  exact h _ k (by omega)

/-- A function behind its word. -/
theorem follows_functionDeclaration {α : Type} {k : Routine → Reader α} {f : Routine → Walk α}
    {no : Reader α} {start : Span} (h : ∀ r, ∀ m < n, Follows s m (k r) (f r)) :
    FollowsAt s n ⟨.keyword .function, start⟩
      (branch (on (.keyword .function) (fun start =>
        andThen (Reader.of (Parser.function start)) k)) no)
      (functionDeclaration >>= f) := by
  rw [functionDeclaration]
  simp only [bind_assoc, pure_bind]
  refine .currentSpan (.expect (if_pos rfl) (fun m hm => ?_))
  show Follows s m (andThen (Reader.of (Parser.function start)) k) _
  rw [Parser.of_function]
  simp only [andThen_assoc, done_andThen]
  refine .expectIdentifier (fun name m₁ hm₁ => .expect (fun _ m₂ hm₂ => ?_))
  refine follows_params (fun groups m₃ hm₃ => .expect (fun _ m₄ hm₄ => ?_))
  refine .typeName (fun ty _ m₅ hm₅ => .expect (fun _ m₆ hm₆ => ?_))
  refine .andThen (follows_block s m₆) (fun body => .expectAt (fun _ m₇ hm₇ => ?_))
  exact h _ m₇ (by omega)

/-- A round over lines of variables: it goes on if a name follows. -/
theorem linesRound_bind {α : Type} {before : List Decl} {f : Round (List Decl) (List Decl) → Walk α} :
    (linesRound before >>= f) = (varDeclaration >>= fun line => peekKind >>= fun kind =>
      match kind with
      | .ident _ => f (.again (before ++ [.vars line]))
      | _ => f (.leave (before ++ [.vars line]))) := by
  rw [linesRound]
  simp only [bind_assoc]
  congr 1
  funext line
  congr 1
  funext kind
  cases kind <;> rfl

/-- Lines of variables, behind the declarations that were read before. -/
theorem follows_lines (before : List Decl) :
    Follows s n (andThen (Reader.of Parser.varLines) (fun lines => done (before ++ lines.map .vars)))
      (lines.run before) := by
  induction n using Nat.strongRecOn generalizing before with
  | ind n ih =>
      rw [Parser.of_varLines, isLoop_lines, linesRound_bind, andThen_assoc]
      refine .andThen_shorter (follows_varDeclaration s n) (fun line m hm => ?_)
      rw [ahead_andThen]
      rintro ⟨kind, span⟩
      refine .ahead (.peekKind ?_) ?_
      · cases kind with
        | ident name =>
            show FollowsAt s m _ (andThen (andThen (Reader.of Parser.varLines)
              (fun more => done (line :: more))) (fun lines => done (before ++ lines.map .vars)))
              (lines.run (before ++ [.vars line]))
            have hmore := ih m hm (before ++ [.vars line])
            simp only [List.append_assoc, List.singleton_append] at hmore
            rw [andThen_assoc]
            exact hmore _
        | _ => exact Follows.done _
      · rintro rfl
        rfl

/-- A round over sections of variables: it goes on behind a `var`. -/
theorem sectionsRound_bind {α : Type} {before : List Decl} {f : Round (List Decl) (List Decl) → Walk α} :
    (sectionsRound before >>= f) = (matchToken (.keyword .var) >>= fun found =>
      if found = true then lines.run before >>= fun next => f (.again next)
      else f (.leave before)) := by
  rw [sectionsRound, bind_assoc]
  congr 1
  funext found
  cases found with
  | true => simp only [if_true, bind_assoc, pure_bind]
  | false => rfl

theorem follows_sections (before : List Decl) :
    Follows s n (andThen (Reader.of Parser.varSections) (fun vars => done (before ++ vars.map .vars)))
      (sections.run before) := by
  induction n using Nat.strongRecOn generalizing before with
  | ind n ih =>
      rw [Parser.of_varSections, isLoop_sections, sectionsRound_bind, on_andThen]
      refine .matchToken (fun _ m hm => ?_) ?_
      · have hsection := Follows.andThen (follows_lines (s := s) (n := m) before) (ih m hm)
        simpa only [andThen_assoc, done_andThen, List.map_append, List.append_assoc,
          Round.goOn] using hsection
      · rw [done_andThen, List.map_nil, List.append_nil]
        exact .done

/-- A round over routines: it goes on behind one of their two words. -/
theorem routinesRound_bind {α : Type} {before : List Decl} {f : Round (List Decl) (List Decl) → Walk α} :
    (routinesRound before >>= f) = (peekKind >>= fun kind =>
      match kind with
      | .keyword .procedure => procedureDeclaration >>= fun r => f (.again (before ++ [.routine r]))
      | .keyword .function => functionDeclaration >>= fun r => f (.again (before ++ [.routine r]))
      | _ => f (.leave before)) := by
  rw [routinesRound, bind_assoc]
  congr 1
  funext kind
  cases kind with
  | keyword word =>
      cases word with
      | procedure => simp only [bind_assoc, pure_bind]
      | function => simp only [bind_assoc, pure_bind]
      | _ => rfl
  | _ => rfl

/-- Routines, behind the declarations that were read before. -/
theorem follows_routines (before : List Decl) :
    Follows s n (andThen (Reader.of Parser.routines) (fun subs => done (before ++ subs.map .routine)))
      (routines.run before) := by
  induction n using Nat.strongRecOn generalizing before with
  | ind n ih =>
      have hmore : ∀ r, ∀ m < n, Follows s m (andThen (Reader.of Parser.routines)
          (fun subs => done (before ++ Decl.routine r :: subs.map .routine)))
          (routines.run (before ++ [.routine r])) := by
        intro r m hm
        have hrest := ih m hm (before ++ [.routine r])
        simpa only [List.append_assoc, List.singleton_append] using hrest
      rw [Parser.of_routines, isLoop_routines, routinesRound_bind]
      simp only [on_andThen, andThen_assoc, done_andThen,
        List.map_cons, List.map_nil, List.append_nil]
      rintro ⟨kind, span⟩
      refine .peekKind ?_
      cases kind with
      | keyword word =>
          cases word with
          | procedure => exact follows_procedureDeclaration hmore
          | function => exact .pass (if_neg (by simp)) (follows_functionDeclaration hmore)
          | _ => exact .pass (if_neg (by simp)) (.pass (if_neg (by simp)) (Follows.done _))
      | _ => exact .pass (if_neg (by simp)) (.pass (if_neg (by simp)) (Follows.done _))

/-- All declarations: variables first, then routines. -/
theorem follows_globalDeclarations (s : Stream) (n : Nat) :
    Follows s n (andThen (Reader.of Parser.varSections) (fun vars =>
      andThen (Reader.of Parser.routines) (fun subs =>
        done (vars.map Decl.vars ++ subs.map .routine)))) globalDeclarations := by
  rw [globalDeclarations]
  have h := Follows.andThen (follows_sections (s := s) (n := n) []) follows_routines
  simpa only [andThen_assoc, done_andThen, List.nil_append] using h

/-- At the end of the stream the block of a program is expected. -/
theorem program_nil {k : List VarDecl → List Routine → Block → Reader Program} :
    andThen (Reader.of Parser.varSections) (fun vars => andThen (Reader.of Parser.routines) (fun subs =>
      andThen (Reader.of Parser.block) (k vars subs))) [] = (.error .blockBegin, []) := by
  rw [Parser.of_varSections, Parser.of_routines, Parser.of_block, Parser.of_expect]
  rfl

/-- **Programs**: a cursor reads what the parser reads. -/
theorem follows_program (s : Stream) (n : Nat) : Follows s n (Reader.of Parser.program) program := by
  rw [Parser.of_program, program]
  intro t
  refine .ahead (.currentSpan ?_) (fun _ => program_nil.trans program_nil.symm)
  have hrest : ∀ declarations, Follows s n (andThen (Reader.of Parser.block) (fun main =>
      andThen (Reader.of (Parser.expect (.punct .dot) .programDot)) (fun stop =>
        done (Program.mk declarations main (t.span.merge stop))))) _ :=
    fun declarations => .andThen (follows_block s n) (fun main => .expectAt (fun _ _ _ => .done))
  have h := Follows.andThen (follows_globalDeclarations s n) hrest
  simp only [andThen_assoc, done_andThen] at h
  exact h t

end Declarations

end Cursor
end TinyPascal
