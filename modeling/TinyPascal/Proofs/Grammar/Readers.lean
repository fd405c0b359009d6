import TinyPascal.Proofs.Grammar.Programs

/-!
# `Proofs.Grammar.Readers` — parsers without their bounds

The parsers carry bounds in their types, so two runs of one parser on two lists have two types. A
`Reader` forgets the bounds: it gives what was read, or what was expected, and the tokens from where it
stopped. Without its bounds each parser is put together from five readers, so what these keep holds of
every parser, whether it succeeds or fails.

## Contents
- **Readers.** `Reader`, its operations, and `Reader.of`, a parser without its bounds.
- **Parsers as readers.** One equation for each parser, from `of_expect` to `of_program`. Rows of operands
  and lists with marks have one equation each.
-/

namespace TinyPascal
namespace Parser

/-! ## Readers -/

/-- A reading without bounds: what was read, or what was expected, and the tokens from where it
    stopped. -/
def Reader (α : Type) : Type :=
  List Token → Except Expectation α × List Token

/-- An outcome without its bound. -/
def result {α : Type} {n : Nat} : Outcome α n → Except Expectation α × List Token
  | .ok p => (.ok p.value, p.rest)
  | .error e => (.error e.expected, e.rest)

namespace Reader

variable {α β : Type}

/-- A parser without its bounds. -/
def of {bound : List Token → Nat} (f : (ts : List Token) → Outcome α (bound ts)) : Reader α :=
  fun ts => result (f ts)

/-- Read nothing. -/
def done (v : α) : Reader α :=
  fun ts => (.ok v, ts)

/-- Expect something else than what is there. -/
def fail (e : Expectation) : Reader α :=
  fun ts => (.error e, ts)

/-- Read one thing and then another. -/
def andThen (p : Reader β) (k : β → Reader α) : Reader α :=
  fun ts =>
    match p ts with
    | (.ok v, r) => k v r
    | (.error e, r) => (.error e, r)

/-- Take the next token if `f` knows how to go on behind it, or go on with `no` in front of it. -/
def branch (f : Token → Option (Reader α)) (no : Reader α) : Reader α
  | [] => no []
  | t :: r =>
    match f t with
    | some q => q r
    | none => no (t :: r)

/-- Look at the next token without taking it. -/
def ahead (k : Option Token → Reader α) : Reader α :=
  fun ts => k ts.head? ts

/-- Go on behind a token of the given kind. -/
def on (kind : Token.Kind) (k : Span → Reader α) : Token → Option (Reader α) :=
  fun t => if t.kind = kind then some (k t.span) else none

/-- Go on behind an operator of the given level. -/
def onOp (level : Token.Kind → Option BinOp) (k : BinOp → Reader α) : Token → Option (Reader α) :=
  fun t => (level t.kind).map k

variable {f : Token → Option (Reader α)} {no q : Reader α} {t : Token} {ts r : List Token}

theorem branch_some (h : f t = some q) : branch f no (t :: r) = q r := by
  simp only [branch, h]

theorem branch_none (h : f t = none) : branch f no (t :: r) = no (t :: r) := by
  simp only [branch, h]

theorem branch_on_cons {kind : Token.Kind} {span : Span} {k : Span → Reader α} :
    branch (on kind k) no (⟨kind, span⟩ :: r) = k span r :=
  branch_some (if_pos rfl)

theorem branch_on_of_stops {kind : Token.Kind} {k : Span → Reader α} (h : Stops (is kind) ts) :
    branch (on kind k) no ts = no ts := by
  cases ts with
  | nil => rfl
  | cons t r => exact branch_none (if_neg (of_decide_eq_false (stops_cons.mp h)))

/-- A branch on operators takes an operator of its level. -/
theorem branch_onOp_cons {level : Token.Kind → Option BinOp} {op : BinOp} {k : BinOp → Reader α}
    (h : level t.kind = some op) : branch (onOp level k) no (t :: r) = k op r := by
  refine branch_some ?_
  rw [onOp, h]
  rfl

/-- A branch on operators leaves all other tokens, and the end of the input. -/
theorem branch_onOp_of_stops {level : Token.Kind → Option BinOp} {k : BinOp → Reader α}
    (h : Stops (fun k => (level k).isSome) ts) : branch (onOp level k) no ts = no ts := by
  cases ts with
  | nil => rfl
  | cons t r =>
      refine branch_none ?_
      have hnone : level t.kind = none := by simpa using stops_cons.mp h
      rw [onOp, hnone]
      rfl

/-- A parser that goes on behind another one. -/
theorem result_bind {n m : Nat} {o : Outcome β m} {g : Parsed β m → Outcome α n} {k : β → Reader α}
    {p : Reader β} (ho : result o = p ts)
    (hg : ∀ v r h, o = .ok ⟨v, r, h⟩ → result (g ⟨v, r, h⟩) = k v r) :
    result (o >>= g) = andThen p k ts := by
  unfold andThen
  rw [← ho]
  cases o with
  | error e => rfl
  | ok parsed => exact hg _ _ _ rfl

/-- A parser that only puts together what another one has read. -/
theorem result_map {n m : Nat} {o : Outcome β m} {g : Parsed β m → Outcome α n} {v : β → α}
    {p : Reader β} (ho : result o = p ts)
    (hg : ∀ w r h, o = .ok ⟨w, r, h⟩ → result (g ⟨w, r, h⟩) = (.ok (v w), r)) :
    result (o >>= g) = andThen p (fun w => done (v w)) ts :=
  result_bind ho hg

/-- A parser that has fewer tokens left when it succeeds. -/
theorem shorter_of {f : (ts : List Token) → Outcome α ts.length} {v : α}
    (h : Reader.of f ts = (.ok v, r)) : r.length < ts.length := by
  unfold Reader.of at h
  cases ho : f ts with
  | error e =>
      rw [ho] at h
      cases h
  | ok p =>
      rw [ho] at h
      cases h
      exact p.shorter

end Reader

/-! ## Parsers as readers -/

open Reader

section Tokens

theorem of_expect (kind : Token.Kind) (expected : Expectation) :
    Reader.of (expect kind expected) = branch (on kind done) (fail expected) := by
  funext ts
  rcases accept_cases kind ts with ⟨hnone, hstop⟩ | ⟨span, r, rfl⟩
  · rw [branch_on_of_stops hstop]
    simp only [Reader.of, expect, hnone]
    rfl
  · rw [branch_on_cons]
    simp only [Reader.of, expect, accept_cons]
    rfl

/-- Go on behind a name. -/
def onName {α : Type} (k : Ident → Reader α) : Token → Option (Reader α)
  | ⟨.ident name, span⟩ => some (k ⟨name, span⟩)
  | _ => none

theorem of_identifier : Reader.of identifier = branch (onName done) (fail .identifier) := by
  funext ts
  unfold Reader.of identifier branch
  cases ts with
  | nil => rfl
  | cons t r =>
      obtain ⟨kind, span⟩ := t
      cases kind <;> rfl

/-- Go on behind a type. -/
def onType {α : Type} (k : Ty × Span → Reader α) : Token → Option (Reader α)
  | ⟨.keyword .integer, span⟩ => some (k (.integer, span))
  | ⟨.keyword .boolean, span⟩ => some (k (.boolean, span))
  | _ => none

theorem of_typeName : Reader.of typeName = branch (onType done) (fail .typeName) := by
  funext ts
  unfold Reader.of typeName branch
  cases ts with
  | nil => rfl
  | cons t r =>
      obtain ⟨kind, span⟩ := t
      cases kind with
      | keyword word => cases word <;> rfl
      | _ => rfl

end Tokens

section Expressions

/-- A sum, and at most one comparison with another one. -/
theorem of_expression :
    Reader.of expression = andThen (Reader.of sum) (fun left =>
      branch (onOp relational? (fun op =>
        andThen (Reader.of sum) (fun right => done (.join op left right)))) (done left)) := by
  funext ts
  show result (expression ts) = _
  rw [expression]
  refine result_bind rfl (fun left r h _ => ?_)
  rcases acceptOp_cases relational? r with ⟨hnone, hstop⟩ | ⟨t, op, r₁, rfl, hop⟩
  · rw [branch_onOp_of_stops hstop]
    simp only [hnone]
    rfl
  · rw [branch_onOp_cons hop]
    simp only [acceptOp_cons hop, Parsed.behind]
    exact result_map rfl (fun _ _ _ _ => rfl)

/-- Operands in a row: the first one, and the rest. -/
theorem of_rowStart {operand : (ts : List Token) → Outcome Expr ts.length}
    {tail : Expr → (ts : List Token) → Outcome Expr (ts.length + 1)} :
    Reader.of (rowStart operand tail) =
      andThen (Reader.of operand) (fun left => Reader.of (tail left)) := by
  funext ts
  refine result_bind rfl (fun left r h _ => ?_)
  show result (tail left r >>= _) = result (tail left r)
  cases tail left r <;> rfl

/-- The rest of a row: an operator, an operand and the rest, or nothing. -/
theorem of_rowNext {level : Token.Kind → Option BinOp}
    {operand : (ts : List Token) → Outcome Expr ts.length}
    {tail : Expr → (ts : List Token) → Outcome Expr (ts.length + 1)} {left : Expr} :
    Reader.of (rowNext level operand tail left) =
      branch (onOp level (fun op =>
        andThen (Reader.of operand) (fun right => Reader.of (tail (.join op left right)))))
        (done left) := by
  funext ts
  show result (rowNext level operand tail left ts) = _
  rw [rowNext]
  rcases acceptOp_cases level ts with ⟨hnone, hstop⟩ | ⟨t, op, r, rfl, hop⟩
  · rw [branch_onOp_of_stops hstop]
    simp only [hnone]
    rfl
  · rw [branch_onOp_cons hop]
    simp only [acceptOp_cons hop, Parsed.behind]
    refine result_bind rfl (fun right r₁ h₁ _ => ?_)
    show result (tail (.join op left right) r₁ >>= _) = result (tail (.join op left right) r₁)
    cases tail (.join op left right) r₁ <;> rfl

theorem sum_eq_rowStart : sum = rowStart product sumTail := by
  funext ts
  rw [sum]
  rfl

theorem sumTail_eq_rowNext (left : Expr) : sumTail left = rowNext additive? product sumTail left := by
  funext ts
  rw [sumTail]
  rfl

theorem product_eq_rowStart : product = rowStart factor productTail := by
  funext ts
  rw [product]
  rfl

theorem productTail_eq_rowNext (left : Expr) :
    productTail left = rowNext multiplicative? factor productTail left := by
  funext ts
  rw [productTail]
  rfl

/-- How a factor goes on behind its first token. -/
def factorBehind : Token → Option (Reader Expr)
  | ⟨.int value, start⟩ => some (done (.int value start))
  | ⟨.keyword .true, start⟩ => some (done (.bool true start))
  | ⟨.keyword .false, start⟩ => some (done (.bool false start))
  | ⟨.ident name, start⟩ => some (branch (on (.punct .lparen) (fun _ =>
      andThen (Reader.of (arguments .callClose)) (fun v =>
        done (.call ⟨name, start⟩ v.1 (start.merge v.2))))) (done (.var name start)))
  | ⟨.punct .lparen, start⟩ => some (andThen (Reader.of expression) (fun inner =>
      andThen (Reader.of (expect (.punct .rparen) .parenClose)) (fun stop =>
        done (.paren inner (start.merge stop)))))
  | ⟨.keyword .not, start⟩ => some (andThen (Reader.of factor) (fun operand =>
      done (.not operand (start.merge operand.span))))
  | _ => none

/-- Factors are told apart by their first token. -/
theorem of_factor : Reader.of factor = branch factorBehind (fail .factor) := by
  funext ts
  show result (factor ts) = _
  rw [factor.eq_def]
  cases ts with
  | nil => rfl
  | cons t r =>
      obtain ⟨kind, start⟩ := t
      cases kind with
      | ident name =>
          rw [branch_some rfl]
          rcases accept_cases (.punct .lparen) r with ⟨hnone, hstop⟩ | ⟨opening, r₁, rfl⟩
          · rw [branch_on_of_stops hstop]
            simp only [hnone]
            rfl
          · rw [branch_on_cons]
            simp only [accept_cons, Parsed.behind]
            exact result_map rfl (fun _ _ _ _ => rfl)
      | keyword word =>
          cases word with
          | not => exact result_map rfl (fun _ _ _ _ => rfl)
          | _ => rfl
      | punct mark =>
          cases mark with
          | lparen =>
              refine result_bind rfl (fun inner r₁ h₁ _ => ?_)
              exact result_map rfl (fun _ _ _ _ => rfl)
          | _ => rfl
      | _ => rfl

/-- No arguments, or some, up to a parenthesis. -/
theorem of_arguments (close : Expectation) :
    Reader.of (arguments close) = branch (on (.punct .rparen) (fun stop => done ([], stop)))
      (andThen (Reader.of expressions) (fun args =>
        andThen (Reader.of (expect (.punct .rparen) close)) (fun stop => done (args, stop)))) := by
  funext ts
  show result (arguments close ts) = _
  rw [arguments]
  rcases accept_cases (.punct .rparen) ts with ⟨hnone, hstop⟩ | ⟨stop, r, rfl⟩
  · rw [branch_on_of_stops hstop]
    simp only [hnone]
    refine result_bind rfl (fun args r₁ h₁ _ => ?_)
    exact result_map rfl (fun _ _ _ _ => rfl)
  · rw [branch_on_cons]
    simp only [accept_cons, Parsed.behind]
    rfl

/-- A list with marks: an item, and more items behind a mark. -/
theorem of_listStep {α : Type} {p : Punct} {item : (ts : List Token) → Outcome α ts.length}
    {items : (ts : List Token) → Outcome (List α) ts.length} :
    Reader.of (listStep p item items) = andThen (Reader.of item) (fun first =>
      branch (on (.punct p) (fun _ => andThen (Reader.of items) (fun more => done (first :: more))))
        (done [first])) := by
  funext ts
  show result (listStep p item items ts) = _
  rw [listStep]
  refine result_bind rfl (fun first r h _ => ?_)
  rcases accept_cases (.punct p) r with ⟨hnone, hstop⟩ | ⟨span, r₁, rfl⟩
  · rw [branch_on_of_stops hstop]
    simp only [hnone]
    rfl
  · rw [branch_on_cons]
    simp only [accept_cons, Parsed.behind]
    exact result_map rfl (fun _ _ _ _ => rfl)

theorem expressions_eq_listStep : expressions = listStep .comma expression expressions := by
  funext ts
  rw [expressions]
  rfl

end Expressions

section Statements

/-- Behind a name: an assignment, or a call. -/
theorem of_assignOrCall (name : Ident) :
    Reader.of (assignOrCall name) =
      branch (on (.operator .assign) (fun _ => andThen (Reader.of expression) (fun value =>
        done (.assign name value (name.span.merge value.span)))))
      (branch (on (.punct .lparen) (fun _ => andThen (Reader.of (arguments .callClose)) (fun v =>
        done (.call name v.1 (name.span.merge v.2)))))
      (fail .assignOrCall)) := by
  funext ts
  show result (assignOrCall name ts) = _
  rw [assignOrCall]
  rcases accept_cases (.operator .assign) ts with ⟨hnone, hstop⟩ | ⟨arrow, r, rfl⟩
  · rw [branch_on_of_stops hstop]
    rcases accept_cases (.punct .lparen) ts with ⟨hnone', hstop'⟩ | ⟨opening, r, rfl⟩
    · rw [branch_on_of_stops hstop']
      simp only [hnone, hnone']
      rfl
    · rw [branch_on_cons]
      simp only [hnone, accept_cons, Parsed.behind]
      exact result_map rfl (fun _ _ _ _ => rfl)
  · rw [branch_on_cons]
    simp only [accept_cons, Parsed.behind]
    exact result_map rfl (fun _ _ _ _ => rfl)

theorem endsReturn_head (ts : List Token) : endsReturn ts.head?.toList = endsReturn ts := by
  cases ts <;> rfl

/-- A `return` reads a value unless its statement ends. -/
theorem of_returned (start : Span) :
    Reader.of (returned start) = ahead (fun t =>
      if endsReturn t.toList then done (.return none start)
      else andThen (Reader.of expression) (fun value =>
        done (.return (some value) (start.merge value.span)))) := by
  funext ts
  show result (returned start ts) = _
  rw [returned, ahead, endsReturn_head]
  cases endsReturn ts with
  | true => rfl
  | false => exact result_map rfl (fun _ _ _ _ => rfl)

/-- A `writeln` reads its arguments in parentheses. -/
theorem of_written (start : Span) :
    Reader.of (written start) = andThen (Reader.of (expect (.punct .lparen) .writelnOpen)) (fun _ =>
      andThen (Reader.of (arguments .writelnClose)) (fun v =>
        done (.write v.1 (start.merge v.2)))) := by
  funext ts
  refine result_bind rfl (fun _ r h _ => ?_)
  exact result_map rfl (fun _ _ _ _ => rfl)

/-- A block is `begin` and statements up to their `end`. -/
theorem of_block :
    Reader.of block = andThen (Reader.of (expect (.keyword .begin) .blockBegin)) (fun start =>
      andThen (Reader.of statements) (fun v => done ⟨v.1, start.merge v.2⟩)) := by
  funext ts
  show result (block ts) = _
  rw [block]
  refine result_bind rfl (fun start r h _ => ?_)
  exact result_map rfl (fun _ _ _ _ => rfl)

/-- Statements up to an `end`, with semicolons in between, some of them around empty statements. -/
theorem of_statements :
    Reader.of statements =
      branch (on (.keyword .end) (fun stop => done ([], stop)))
      (branch (on (.punct .semicolon) (fun _ => Reader.of statements))
      (andThen (Reader.of statement) (fun first =>
        branch (on (.punct .semicolon) (fun _ => andThen (Reader.of statements) (fun v =>
          done (first :: v.1, v.2))))
        (andThen (Reader.of (expect (.keyword .end) .blockEnd)) (fun stop =>
          done ([first], stop)))))) := by
  funext ts
  show result (statements ts) = _
  rw [statements]
  rcases accept_cases (.keyword .end) ts with ⟨hnone, hstop⟩ | ⟨stop, r, rfl⟩
  · rw [branch_on_of_stops hstop]
    rcases accept_cases (.punct .semicolon) ts with ⟨hnone', hstop'⟩ | ⟨span, r, rfl⟩
    · rw [branch_on_of_stops hstop']
      simp only [hnone, hnone']
      refine result_bind rfl (fun first r h _ => ?_)
      rcases accept_cases (.punct .semicolon) r with ⟨hno, hstop₁⟩ | ⟨span, r₁, rfl⟩
      · rw [branch_on_of_stops hstop₁]
        simp only [hno]
        exact result_map rfl (fun _ _ _ _ => rfl)
      · rw [branch_on_cons]
        simp only [accept_cons, Parsed.behind]
        exact result_map rfl (fun _ _ _ _ => rfl)
    · rw [branch_on_cons]
      simp only [hnone, accept_cons, Parsed.behind]
      show result (statements r >>= _) = result (statements r)
      cases statements r <;> rfl
  · rw [branch_on_cons]
    simp only [accept_cons, Parsed.behind]
    rfl

/-- How a statement goes on behind its first token. -/
def statementBehind : Token → Option (Reader Stmt)
  | ⟨.ident name, start⟩ => some (Reader.of (assignOrCall ⟨name, start⟩))
  | ⟨.keyword .return, start⟩ => some (Reader.of (returned start))
  | ⟨.keyword .if, start⟩ => some (andThen (Reader.of expression) (fun cond =>
      andThen (Reader.of (expect (.keyword .then) .ifThen)) (fun _ =>
        andThen (Reader.of block) (fun yes =>
          branch (on (.keyword .else) (fun _ => andThen (Reader.of block) (fun no =>
            done (.ifElse cond yes no (start.merge no.span)))))
          (done (.ifThen cond yes (start.merge yes.span)))))))
  | ⟨.keyword .while, start⟩ => some (andThen (Reader.of expression) (fun cond =>
      andThen (Reader.of (expect (.keyword .do) .whileDo)) (fun _ =>
        andThen (Reader.of block) (fun body =>
          done (.while cond body (start.merge body.span))))))
  | ⟨.keyword .break, start⟩ => some (done (.break start))
  | ⟨.keyword .continue, start⟩ => some (done (.continue start))
  | ⟨.keyword .writeln, start⟩ => some (Reader.of (written start))
  | _ => none

/-- Statements are told apart by their first token. -/
theorem of_statement : Reader.of statement = branch statementBehind (fail .statement) := by
  funext ts
  show result (statement ts) = _
  rw [statement.eq_def]
  cases ts with
  | nil => rfl
  | cons t r =>
      obtain ⟨kind, start⟩ := t
      cases kind with
      | ident name =>
          show result (assignOrCall ⟨name, start⟩ r >>= _) = result (assignOrCall ⟨name, start⟩ r)
          cases assignOrCall ⟨name, start⟩ r <;> rfl
      | keyword word =>
          cases word with
          | «return» =>
              show result (returned start r >>= _) = result (returned start r)
              cases returned start r <;> rfl
          | writeln =>
              show result (written start r >>= _) = result (written start r)
              cases written start r <;> rfl
          | «if» =>
              refine result_bind rfl (fun cond r₁ h₁ _ => ?_)
              refine result_bind rfl (fun _ r₂ h₂ _ => ?_)
              refine result_bind rfl (fun yes r₃ h₃ _ => ?_)
              rcases accept_cases (.keyword .else) r₃ with ⟨hnone, hstop⟩ | ⟨mid, r₄, rfl⟩
              · rw [branch_on_of_stops hstop]
                simp only [hnone]
                rfl
              · rw [branch_on_cons]
                simp only [accept_cons, Parsed.behind]
                exact result_map rfl (fun _ _ _ _ => rfl)
          | «while» =>
              refine result_bind rfl (fun cond r₁ h₁ _ => ?_)
              refine result_bind rfl (fun _ r₂ h₂ _ => ?_)
              exact result_map rfl (fun _ _ _ _ => rfl)
          | _ => rfl
      | _ => rfl

end Statements

section Programs

theorem names_eq_listStep : names = listStep .comma identifier names := by
  funext ts
  rw [names]
  rfl

theorem paramGroups_eq_listStep : paramGroups = listStep .semicolon param paramGroups := by
  funext ts
  rw [paramGroups]
  rfl

/-- The place where the next token stands. -/
def placeOf (t : Option Token) : Span :=
  (t.map Token.span).getD {}

/-- Names, a colon, a type and a semicolon. -/
theorem of_varLine :
    Reader.of varLine = ahead (fun t => andThen (Reader.of names) (fun declared =>
      andThen (Reader.of (expect (.punct .colon) .varColon)) (fun _ =>
        andThen (Reader.of typeName) (fun ty =>
          andThen (Reader.of (expect (.punct .semicolon) .varSemicolon)) (fun stop =>
            done ⟨declared, ty.1, (placeOf t).merge stop⟩))))) := by
  funext ts
  refine result_bind rfl (fun declared r h _ => ?_)
  refine result_bind rfl (fun _ r₁ h₁ _ => ?_)
  refine result_bind rfl (fun ty r₂ h₂ _ => ?_)
  exact result_map rfl (fun _ _ _ _ => rfl)

theorem atName_head (ts : List Token) : atName ts.head?.toList = atName ts := by
  cases ts with
  | nil => rfl
  | cons t r =>
      obtain ⟨kind, span⟩ := t
      cases kind <;> rfl

/-- Lines of variables, as long as a name follows. -/
theorem of_varLines :
    Reader.of varLines = andThen (Reader.of varLine) (fun first => ahead (fun t =>
      if atName t.toList then andThen (Reader.of varLines) (fun more => done (first :: more))
      else done [first])) := by
  funext ts
  show result (varLines ts) = _
  rw [varLines]
  refine result_bind rfl (fun first r h _ => ?_)
  rw [ahead, atName_head]
  cases hname : atName r with
  | true =>
      simp only [hname, if_true]
      exact result_map rfl (fun _ _ _ _ => rfl)
  | false =>
      simp only [hname, Bool.false_eq_true, if_false]
      rfl

/-- Sections of variables, as long as a `var` follows. -/
theorem of_varSections :
    Reader.of varSections = branch (on (.keyword .var) (fun _ => andThen (Reader.of varLines)
      (fun lines => andThen (Reader.of varSections) (fun more => done (lines ++ more)))))
      (done []) := by
  funext ts
  show result (varSections ts) = _
  rw [varSections]
  rcases accept_cases (.keyword .var) ts with ⟨hnone, hstop⟩ | ⟨span, r, rfl⟩
  · rw [branch_on_of_stops hstop]
    simp only [hnone]
    rfl
  · rw [branch_on_cons]
    simp only [accept_cons, Parsed.behind]
    refine result_bind rfl (fun lines r₁ h₁ _ => ?_)
    exact result_map rfl (fun _ _ _ _ => rfl)

/-- Names, a colon and a type. -/
theorem of_param :
    Reader.of param = ahead (fun t => andThen (Reader.of names) (fun declared =>
      andThen (Reader.of (expect (.punct .colon) .paramColon)) (fun _ =>
        andThen (Reader.of typeName) (fun ty =>
          done ⟨declared, ty.1, (placeOf t).merge ty.2⟩)))) := by
  funext ts
  refine result_bind rfl (fun declared r h _ => ?_)
  refine result_bind rfl (fun _ r₁ h₁ _ => ?_)
  exact result_map rfl (fun _ _ _ _ => rfl)

/-- No parameters, or some, up to a parenthesis. -/
theorem of_params :
    Reader.of params = branch (on (.punct .rparen) (fun _ => done []))
      (andThen (Reader.of paramGroups) (fun groups =>
        andThen (Reader.of (expect (.punct .rparen) .paramsClose)) (fun _ => done groups))) := by
  funext ts
  show result (params ts) = _
  rw [params]
  rcases accept_cases (.punct .rparen) ts with ⟨hnone, hstop⟩ | ⟨stop, r, rfl⟩
  · rw [branch_on_of_stops hstop]
    simp only [hnone]
    refine result_bind rfl (fun groups r₁ h₁ _ => ?_)
    exact result_map rfl (fun _ _ _ _ => rfl)
  · rw [branch_on_cons]
    simp only [accept_cons, Parsed.behind]
    rfl

/-- Parameters if a parenthesis follows. -/
theorem of_procedureParams :
    Reader.of procedureParams = branch (on (.punct .lparen) (fun _ => Reader.of params))
      (done []) := by
  funext ts
  show result (procedureParams ts) = _
  rw [procedureParams]
  rcases accept_cases (.punct .lparen) ts with ⟨hnone, hstop⟩ | ⟨span, r, rfl⟩
  · rw [branch_on_of_stops hstop]
    simp only [hnone]
    rfl
  · rw [branch_on_cons]
    simp only [accept_cons, Parsed.behind]
    show result (params r >>= _) = result (params r)
    cases params r <;> rfl

/-- A name, parameters, a semicolon, a block and a semicolon. -/
theorem of_procedure (start : Span) :
    Reader.of (procedure start) = andThen (Reader.of identifier) (fun name =>
      andThen (Reader.of procedureParams) (fun groups =>
        andThen (Reader.of (expect (.punct .semicolon) .procedureSemicolon)) (fun _ =>
          andThen (Reader.of block) (fun body =>
            andThen (Reader.of (expect (.punct .semicolon) .procedureEnd)) (fun stop =>
              done ⟨name, groups, none, body, start.merge stop⟩))))) := by
  funext ts
  refine result_bind rfl (fun name r h _ => ?_)
  refine result_bind rfl (fun groups r₁ h₁ _ => ?_)
  refine result_bind rfl (fun _ r₂ h₂ _ => ?_)
  refine result_bind rfl (fun body r₃ h₃ _ => ?_)
  exact result_map rfl (fun _ _ _ _ => rfl)

/-- A name, parameters in parentheses, a colon, a type, a semicolon, a block and a semicolon. -/
theorem of_function (start : Span) :
    Reader.of (function start) = andThen (Reader.of identifier) (fun name =>
      andThen (Reader.of (expect (.punct .lparen) .functionOpen)) (fun _ =>
        andThen (Reader.of params) (fun groups =>
          andThen (Reader.of (expect (.punct .colon) .functionColon)) (fun _ =>
            andThen (Reader.of typeName) (fun ty =>
              andThen (Reader.of (expect (.punct .semicolon) .functionSemicolon)) (fun _ =>
                andThen (Reader.of block) (fun body =>
                  andThen (Reader.of (expect (.punct .semicolon) .functionEnd)) (fun stop =>
                    done ⟨name, groups, some ty.1, body, start.merge stop⟩)))))))) := by
  funext ts
  refine result_bind rfl (fun name r h _ => ?_)
  refine result_bind rfl (fun _ r₁ h₁ _ => ?_)
  refine result_bind rfl (fun groups r₂ h₂ _ => ?_)
  refine result_bind rfl (fun _ r₃ h₃ _ => ?_)
  refine result_bind rfl (fun ty r₄ h₄ _ => ?_)
  refine result_bind rfl (fun _ r₅ h₅ _ => ?_)
  refine result_bind rfl (fun body r₆ h₆ _ => ?_)
  exact result_map rfl (fun _ _ _ _ => rfl)

/-- Routines, as long as one of their two words follows. -/
theorem of_routines :
    Reader.of routines =
      branch (on (.keyword .procedure) (fun start => andThen (Reader.of (procedure start))
        (fun first => andThen (Reader.of routines) (fun more => done (first :: more)))))
      (branch (on (.keyword .function) (fun start => andThen (Reader.of (function start))
        (fun first => andThen (Reader.of routines) (fun more => done (first :: more)))))
      (done [])) := by
  funext ts
  show result (routines ts) = _
  rw [routines]
  rcases accept_cases (.keyword .procedure) ts with ⟨hnone, hstop⟩ | ⟨start, r, rfl⟩
  · rw [branch_on_of_stops hstop]
    rcases accept_cases (.keyword .function) ts with ⟨hnone', hstop'⟩ | ⟨start, r, rfl⟩
    · rw [branch_on_of_stops hstop']
      simp only [hnone, hnone']
      rfl
    · rw [branch_on_cons]
      simp only [hnone, accept_cons, Parsed.behind]
      refine result_bind rfl (fun first r₁ h₁ _ => ?_)
      exact result_map rfl (fun _ _ _ _ => rfl)
  · rw [branch_on_cons]
    simp only [accept_cons, Parsed.behind]
    refine result_bind rfl (fun first r₁ h₁ _ => ?_)
    exact result_map rfl (fun _ _ _ _ => rfl)

/-- Variables, routines, a block and a dot. -/
theorem of_program :
    Reader.of program = ahead (fun t => andThen (Reader.of varSections) (fun vars =>
      andThen (Reader.of routines) (fun subs =>
        andThen (Reader.of block) (fun main =>
          andThen (Reader.of (expect (.punct .dot) .programDot)) (fun stop =>
            done ⟨vars.map .vars ++ subs.map .routine, main, (placeOf t).merge stop⟩))))) := by
  funext ts
  refine result_bind rfl (fun vars r h _ => ?_)
  refine result_bind rfl (fun subs r₁ h₁ _ => ?_)
  refine result_bind rfl (fun main r₂ h₂ _ => ?_)
  exact result_map rfl (fun _ _ _ _ => rfl)

end Programs

end Parser
end TinyPascal
