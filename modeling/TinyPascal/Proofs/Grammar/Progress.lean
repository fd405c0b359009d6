import TinyPascal.Proofs.Grammar.Agreement

/-!
# `Proofs.Grammar.Progress` — a cursor gets on and stays in range

Nothing in a walk says that it ends, that its index stays in range, or that a loop which goes round again has
taken a token. This module shows all three, **from every index of every stream**. The walks that follow a
parser have it from the parser, which leaves fewer tokens whenever it gives a value. The others, the rounds
of the loops among them, are put together from these, and what each part does says what the whole does.

## Contents
- **Moving on.** `Moves s must y`: the walk `y` ends in range, and has moved on for the values for which it
  must. `Advances`, `Steady` and `RoundsAdvance` are the cases that occur. One lemma for each way to put
  walks together.
- **The grammar.** One lemma for each walk and for each round of a loop.
- **Calls.** `Session`: calls one after the other. `cursor_progresses`.
-/

namespace TinyPascal

/-- What is read off a stream, in terms of the reader of programs. -/
theorem Stream.next_eq_reader (s : Stream) :
    s.next.1 = (Parser.Reader.of Parser.program s.tokens).1.mapError
        (reject ⟨(Parser.Reader.of Parser.program s.tokens).2, s.finish⟩) ∧
      s.next.2 = ⟨(Parser.Reader.of Parser.program s.tokens).2, s.finish⟩ := by
  unfold next Parser.Reader.of
  cases Parser.program s.tokens with
  | ok p => exact ⟨rfl, rfl⟩
  | error e => exact ⟨rfl, rfl⟩

namespace Cursor

open TinyPascal.Parser (Reader)

/-! ## Moving on -/

section Definitions

variable {α β : Type}

/-- How a run from `i` ends at `j`. -/
structure Ends (s : Stream) (must : α → Prop) (i : Nat) (result : Except Halt α) (j : Nat) : Prop where
  reaches : Reaches s i j
  /-- A failure is the error at the token where the cursor rests. -/
  rests : ∀ h, result = .error h →
    ∃ t expected, s.toList[j]? = some t ∧ h = .rejected ⟨expected, t.kind.text, t.span⟩
  /-- The cursor has moved if it must for this value. -/
  moved : ∀ v, result = .ok v → must v → i < j

/-- **The walk ends from every index**, and it moves on for the values for which it must. -/
def Moves (s : Stream) (must : α → Prop) (y : Walk α) : Prop :=
  ∀ i < s.toList.length, ∃ result j, y s.toList i = some (result, j) ∧ Ends s must i result j

/-- The walk ends from every index. -/
abbrev Steady (s : Stream) (y : Walk α) : Prop :=
  Moves s (fun _ => False) y

/-- The walk ends from every index, and it moves on whenever it gives a value. -/
abbrev Advances (s : Stream) (y : Walk α) : Prop :=
  Moves s (fun _ => True) y

/-- The loop goes round again. -/
def Round.GoesOn {σ : Type} : Round σ α → Prop
  | .again _ => True
  | .leave _ => False

/-- Each round of a loop ends from every index, and it moves on if the loop goes round again. -/
abbrev RoundsAdvance {σ : Type} (s : Stream) (round : σ → Walk (Round σ α)) : Prop :=
  ∀ state, Moves s Round.GoesOn (round state)

/-- A loop that is its rounds, and moves on from each one to the next. -/
structure LoopAdvances {σ : Type} (s : Stream) (more : σ → Walk α) (round : σ → Walk (Round σ α)) :
    Prop where
  isLoop : IsLoop more round
  rounds : RoundsAdvance s round

variable {s : Stream} {P : β → Prop} {Q : α → Prop} {x : Walk β} {f : β → Walk α} {y z : Walk α}
  {kind : Token.Kind} {text : String}

namespace Moves

/-- A walk that does what a reader does. -/
theorem of_follows {p : Reader α} (h : ∀ n, Follows s n p y)
    (hmoved : ∀ ts v r, p ts = (.ok v, r) → Q v → r.length < ts.length) : Moves s Q y := by
  intro i hi
  obtain ⟨j, hreach, hrest, hrun⟩ := (h s.tokens.length).tracks hi (Nat.le_add_left _ _)
  refine ⟨_, j, hrun, hreach, fun e he => ?_, fun v hv hQ => ?_⟩
  · obtain ⟨e', _, rfl⟩ := Except.mapError_eq_error.mp he
    refine ⟨_, e'.describe, List.getElem?_eq_getElem hreach.inRange, ?_⟩
    rw [Stream.reject, Stream.head_drop (List.getElem?_eq_getElem hreach.inRange)]
  · have hread := Except.mapError_eq_ok.mp hv
    have hshort := hmoved _ v _ (Prod.ext hread hrest) hQ
    rw [List.length_drop, List.length_drop] at hshort
    omega

/-- A walk that must move for more values must move for fewer. -/
theorem mono {R : α → Prop} (h : Moves s Q y) (himp : ∀ v, R v → Q v) : Moves s R y := by
  intro i hi
  obtain ⟨result, j, hrun, hends⟩ := h i hi
  exact ⟨result, j, hrun, hends.reaches, hends.rests, fun v hv hR => hends.moved v hv (himp v hR)⟩

/-- Two walks in a row: the second must move on where the first did not have to. -/
theorem bind (hx : Moves s P x) (hf : ∀ v, Moves s (fun w => Q w ∧ ¬ P v) (f v)) :
    Moves s Q (x >>= f) := by
  intro i hi
  obtain ⟨result, j, hrun, hends⟩ := hx i hi
  cases result with
  | error e =>
      refine ⟨.error e, j, bind_of_error hrun, hends.reaches, fun h heq => ?_, nofun⟩
      cases heq
      exact hends.rests e rfl
  | ok v =>
      obtain ⟨result', j', hrun', hends'⟩ := hf v j hends.reaches.inRange
      refine ⟨result', j', (bind_of_ok hrun).trans hrun', hends.reaches.trans hends'.reaches,
        hends'.rests, fun w hw hQ => ?_⟩
      have hfirst := hends.reaches.forward
      have hsecond := hends'.reaches.forward
      by_cases hP : P v
      · have hlt := hends.moved v rfl hP
        omega
      · have hlt := hends'.moved w hw ⟨hQ, hP⟩
        omega

theorem steady (h : Moves s Q y) : Steady s y :=
  h.mono nofun

/-- Behind a walk that moves on, it is enough to end. -/
theorem andThen (hx : Advances s x) (hf : ∀ v, Steady s (f v)) : Moves s Q (x >>= f) :=
  hx.bind (fun v => (hf v).mono (fun _ h => h.2 trivial))

/-- Behind a walk that only has to end, the rest has to move on. -/
theorem behind (hx : Steady s x) (hf : ∀ v, Moves s Q (f v)) : Moves s Q (x >>= f) :=
  hx.bind (fun v => (hf v).mono (fun _ h => h.1))

/-- A value without a step, for which the walk does not have to move on. -/
theorem pure {v : α} (hv : ¬ Q v) : Moves s Q (pure v) := by
  intro i hi
  refine ⟨.ok v, i, rfl, .refl (List.getElem?_eq_getElem hi), nofun, fun w hw hQ => ?_⟩
  cases hw
  exact absurd hQ hv

theorem done {v : α} : Steady s (Pure.pure v) :=
  pure not_false

/-- A round that leaves its loop need not have moved. -/
theorem leave {σ : Type} {v : α} :
    Moves s Round.GoesOn (Pure.pure (Round.leave v : Round σ α)) :=
  pure not_false

/-- Of two ways, the one that is taken counts. -/
theorem ite {c : Prop} [Decidable c] (hy : c → Moves s Q y) (hz : ¬ c → Moves s Q z) :
    Moves s Q (if c then y else z) := by
  by_cases hc : c
  · rw [if_pos hc]
    exact hy hc
  · rw [if_neg hc]
    exact hz hc

/-! ### Single tokens -/

/-- A step that takes nothing. -/
theorem of_look (hx : ∀ i < s.toList.length, ∃ a, x s.toList i = some (.ok a, i)) : Steady s x := by
  intro i hi
  obtain ⟨a, hrun⟩ := hx i hi
  exact ⟨.ok a, i, hrun, .refl (List.getElem?_eq_getElem hi), nofun, nofun⟩

theorem peekKind : Steady s Cursor.peekKind :=
  of_look (fun _ hi => ⟨_, peekKind_eq (List.getElem?_eq_getElem hi)⟩)

theorem currentSpan : Steady s Cursor.currentSpan :=
  of_look (fun _ hi => ⟨_, currentSpan_eq (List.getElem?_eq_getElem hi)⟩)

theorem check : Steady s (Cursor.check kind) :=
  of_look (fun _ hi => ⟨_, check_eq (List.getElem?_eq_getElem hi)⟩)

/-- The place of the token in front of the cursor can be read wherever the cursor has moved. -/
theorem previousSpan : Steady s Cursor.previousSpan := by
  refine of_look (fun i hi => ?_)
  have hlt : i - 1 < s.toList.length := by omega
  exact ⟨_, bind_of_ok (tokenAt_eq (List.getElem?_eq_getElem hlt))⟩

/-- An error needs no move. -/
theorem reject : Moves s Q (Cursor.reject text) := by
  intro i hi
  have ht := List.getElem?_eq_getElem hi
  refine ⟨_, i, reject_eq ht, .refl ht, fun h heq => ?_, nofun⟩
  cases heq
  exact ⟨_, text, ht, rfl⟩

/-- A token that is taken, of a kind that does not end a stream. -/
theorem matchToken [Passable kind] : Moves s (· = true) (Cursor.matchToken kind) := by
  intro i hi
  have ht := List.getElem?_eq_getElem hi
  by_cases hk : s.toList[i].kind = kind
  · have hne : s.toList[i].kind ≠ .eof := hk.trans_ne Passable.ne_eof
    have hlt := (Reaches.lt_of_ne_eof ht hne).1
    exact ⟨.ok true, i + 1, matchToken_eq_true ht hlt hk, .step ht hne, nofun,
      fun _ _ _ => Nat.lt_succ_self i⟩
  · refine ⟨.ok false, i, matchToken_eq_false ht hk, .refl ht, nofun, fun v hv htrue => ?_⟩
    cases hv
    cases htrue

/-- A walk over a single token, which is taken or rejected. -/
theorem of_token (hx : ∀ t, (t.kind ≠ .eof ∧ ∃ a, ∀ v i, v[i]? = some t → i + 1 < v.length →
      x v i = some (.ok a, i + 1)) ∨
    ∃ expected, ∀ v i, v[i]? = some t →
      x v i = some (.error (.rejected ⟨expected, t.kind.text, t.span⟩), i)) : Advances s x := by
  intro i hi
  have ht := List.getElem?_eq_getElem hi
  rcases hx s.toList[i] with ⟨hne, a, hrun⟩ | ⟨expected, hrun⟩
  · have hlt := (Reaches.lt_of_ne_eof ht hne).1
    exact ⟨.ok a, i + 1, hrun _ i ht hlt, .step ht hne, nofun, fun _ _ _ => Nat.lt_succ_self i⟩
  · refine ⟨_, i, hrun _ i ht, .refl ht, fun h heq => ?_, nofun⟩
    cases heq
    exact ⟨_, expected, ht, rfl⟩

/-- An expected token is passed. -/
theorem expect [Passable kind] : Advances s (Cursor.expect kind text) := by
  refine of_token (fun t => ?_)
  by_cases hk : t.kind = kind
  · exact .inl ⟨hk.trans_ne Passable.ne_eof, (), fun v i ht hlt => expect_eq_ok ht hlt hk⟩
  · exact .inr ⟨text, fun v i ht => expect_eq_error ht hk⟩

/-- The name of a type is passed. -/
theorem typeName : Advances s Cursor.typeName := by
  refine of_token (fun t => ?_)
  rcases typeName_cases Parser.Reader.done t with ⟨ty, hne, _, hrun⟩ | ⟨_, hrun⟩
  · exact .inl ⟨hne, ty, hrun⟩
  · exact .inr ⟨_, hrun⟩

/-- Going on behind a token that is taken if it is there. -/
theorem ifMatch [Passable kind] (hy : Steady s y) (hz : Moves s Q z) :
    Moves s Q (Cursor.matchToken kind >>= fun found => if found = true then y else z) := by
  refine matchToken.bind (fun found => ite (fun hfound => ?_) (fun _ => ?_))
  · exact hy.mono (fun _ h => h.2 hfound)
  · exact hz.mono (fun _ h => h.1)

/-- A branch on the kind of the token at the cursor. -/
theorem ifCheck (hy : Moves s Q y) (hz : Moves s Q z) :
    Moves s Q (Cursor.check kind >>= fun found => if found = true then y else z) :=
  check.behind (fun _ => ite (fun _ => hy) (fun _ => hz))

/-- Going on behind an operator that is taken if it is there. -/
theorem ifOperator {level : Token.Kind → Option BinOp} {f : BinOp → Walk α}
    (hlevel : level .eof = none) (hf : ∀ op, Steady s (f op)) (hz : Moves s Q z) :
    Moves s Q (Cursor.peekKind >>= fun kind =>
      match level kind with
      | none => z
      | some op => discard advance >>= fun _ => f op) := by
  intro i hi
  have ht := List.getElem?_eq_getElem hi
  rw [bind_of_ok (peekKind_eq ht)]
  cases hop : level s.toList[i].kind with
  | none => exact hz i hi
  | some op =>
      have hne : s.toList[i].kind ≠ .eof := by
        intro heof
        rw [heof, hlevel] at hop
        cases hop
      have hlt := (Reaches.lt_of_ne_eof ht hne).1
      obtain ⟨result, j, hrun, hends⟩ := hf op (i + 1) hlt
      refine ⟨result, j, (bind_of_ok (discard_advance_eq ht hlt)).trans hrun,
        (Reaches.step ht hne).trans hends.reaches, hends.rests, fun _ _ _ => ?_⟩
      have hforward := hends.reaches.forward
      omega

end Moves

end Definitions

/-! ## The grammar -/

section Grammar

variable (s : Stream)

/-- A walk that follows a parser which takes at least one token. -/
theorem advances_of_follows {s : Stream} {α : Type} {g : (ts : List Token) → Parser.Outcome α ts.length}
    {y : Walk α} (h : ∀ n, Follows s n (Reader.of g) y) : Advances s y :=
  .of_follows h (fun _ _ _ hread _ => Parser.Reader.shorter_of hread)

/-- A walk that follows a reader ends, as the reader does. -/
theorem steady_of_follows {s : Stream} {α : Type} {p : Reader α} {y : Walk α}
    (h : ∀ n, Follows s n p y) : Steady s y :=
  .of_follows h nofun

/-! ### Expressions -/

theorem advances_factor : Advances s factor :=
  advances_of_follows (fun n => (follows_exprs s n).1)

theorem advances_product : Advances s product :=
  advances_of_follows (fun n => follows_product (follows_exprs s n).1)

theorem advances_sum : Advances s sum :=
  advances_of_follows (fun n => follows_sum (follows_product (follows_exprs s n).1))

theorem advances_expression : Advances s expression :=
  advances_of_follows (follows_expr s)

/-- Arguments may be missing. -/
theorem steady_optionalExpressions : Steady s optionalExpressions := by
  rw [optionalExpressions, ExprRule.walk]
  exact .ifCheck .done (steady_of_follows (fun n => follows_expressions (follows_expr s n)))

/-- The parenthesis behind the arguments is taken. -/
theorem advances_callArguments : Advances s callArguments := by
  rw [callArguments, ExprRule.walk]
  refine .andThen .expect (fun _ => ?_)
  refine .behind (steady_optionalExpressions s) (fun _ => ?_)
  exact .andThen .expect (fun _ => .done)

/-- Rows of operands that end. -/
theorem roundsAdvance_row {level : Token.Kind → Option BinOp} {operand : Walk Expr}
    (hlevel : level .eof = none) (h : Steady s operand) : RoundsAdvance s (rowRound level operand) := by
  intro left
  rw [rowRound]
  refine .ifOperator hlevel (fun op => ?_) .leave
  exact .behind h (fun _ => .done)

/-- Each further operand of a sum comes behind an operator. -/
theorem roundsAdvance_sum : RoundsAdvance s sumRound := by
  rw [sumRound_eq]
  exact roundsAdvance_row s rfl (advances_product s).steady

/-- Each further operand of a product comes behind an operator. -/
theorem roundsAdvance_product : RoundsAdvance s productRound := by
  rw [productRound_eq]
  exact roundsAdvance_row s rfl (advances_factor s).steady

/-- Lists with marks, of items that end. -/
theorem roundsAdvance_list {α : Type} {mark : Punct} {item : Walk α} (h : Steady s item) :
    RoundsAdvance s (listRound mark item) := by
  intro before
  rw [listRound]
  refine .ifMatch ?_ .leave
  exact .behind h (fun _ => .done)

/-- Each further argument comes behind a comma. -/
theorem roundsAdvance_expressions : RoundsAdvance s expressionsRound := by
  rw [expressionsRound_eq]
  exact roundsAdvance_list s (advances_expression s).steady

/-! ### Statements -/

theorem advances_identifier : Advances s expectIdentifier :=
  advances_of_follows (follows_identifier s)

theorem advances_block : Advances s block :=
  advances_of_follows (follows_block s)

theorem advances_statement : Advances s statement :=
  advances_of_follows (fun _ => follows_statement (fun m _ => follows_block s m))

theorem advances_assignOrCall : Advances s assignOrCall := by
  rw [assignOrCall]
  refine .andThen (advances_identifier s) (fun target => ?_)
  refine .ifMatch (.andThen (advances_expression s) (fun _ => .done)) ?_
  refine .ifCheck (.andThen (advances_callArguments s) (fun args => ?_)) .reject
  exact .behind .previousSpan (fun _ => .done)

theorem advances_writeStatement : Advances s writeStatement := by
  rw [writeStatement]
  refine .behind .currentSpan (fun start => .andThen .expect (fun _ => ?_))
  refine .andThen .expect (fun _ => .behind (steady_optionalExpressions s) (fun args => ?_))
  exact .behind .currentSpan (fun stop => .andThen .expect (fun _ => .done))

theorem advances_returnStatement : Advances s returnStatement := by
  rw [returnStatement]
  refine .behind .currentSpan (fun start => .andThen .expect (fun _ => ?_))
  exact steady_of_follows (fun _ => follows_returnValue start)

theorem advances_ifStatement : Advances s ifStatement := by
  rw [ifStatement, StmtRule.walk]
  refine .behind .currentSpan (fun start => .andThen .expect (fun _ => ?_))
  refine .andThen (advances_expression s) (fun cond => .andThen .expect (fun _ => ?_))
  refine .andThen (advances_block s) (fun yes => ?_)
  exact .ifMatch (.andThen (advances_block s) (fun _ => .done)) .done

theorem advances_whileStatement : Advances s whileStatement := by
  rw [whileStatement, StmtRule.walk]
  refine .behind .currentSpan (fun start => .andThen .expect (fun _ => ?_))
  refine .andThen (advances_expression s) (fun cond => .andThen .expect (fun _ => ?_))
  exact .andThen (advances_block s) (fun _ => .done)

/-- Each round of a block takes a semicolon or a statement. -/
theorem roundsAdvance_block : RoundsAdvance s blockRound := by
  intro before
  rw [blockRound, StmtRule.walk]
  refine .ifCheck .leave (.ifMatch .done ?_)
  refine .andThen (advances_statement s) (fun first => ?_)
  exact .ifMatch .done .done

/-! ### Declarations -/

theorem advances_names : Advances s names :=
  advances_of_follows (follows_names s)

theorem advances_varDeclaration : Advances s varDeclaration :=
  advances_of_follows (follows_varDeclaration s)

theorem advances_param : Advances s param :=
  advances_of_follows (follows_param s)

/-- Parameters may be missing. -/
theorem steady_optionalParams : Steady s optionalParams := by
  rw [optionalParams]
  have hlist : ∀ n, Follows s n (Reader.of Parser.paramGroups) _ :=
    fun n => follows_listOf Parser.paramGroups_eq_listStep (follows_param s n)
  exact .ifCheck .done (steady_of_follows hlist)

theorem advances_procedureDeclaration : Advances s procedureDeclaration := by
  rw [procedureDeclaration]
  refine .behind .currentSpan (fun start => .andThen .expect (fun _ => ?_))
  refine .andThen (advances_identifier s) (fun name => ?_)
  refine .behind (steady_of_follows (follows_procedureParams s)) (fun params => ?_)
  refine .andThen .expect (fun _ => .andThen (advances_block s) (fun body => ?_))
  exact .behind .currentSpan (fun stop => .andThen .expect (fun _ => .done))

theorem advances_functionDeclaration : Advances s functionDeclaration := by
  rw [functionDeclaration]
  refine .behind .currentSpan (fun start => .andThen .expect (fun _ => ?_))
  refine .andThen (advances_identifier s) (fun name => .andThen .expect (fun _ => ?_))
  refine .behind (steady_optionalParams s) (fun params => .andThen .expect (fun _ => ?_))
  refine .andThen .expect (fun _ => .andThen .typeName (fun result => ?_))
  refine .andThen .expect (fun _ => .andThen (advances_block s) (fun body => ?_))
  exact .behind .currentSpan (fun stop => .andThen .expect (fun _ => .done))

/-- Each further line of variables takes its names. -/
theorem roundsAdvance_lines : RoundsAdvance s linesRound := by
  intro before
  rw [linesRound]
  refine .andThen (advances_varDeclaration s) (fun line => .behind .peekKind (fun kind => ?_))
  cases kind <;> exact .done

/-- Each further section of variables takes its `var`. -/
theorem roundsAdvance_sections : RoundsAdvance s sectionsRound := by
  intro before
  rw [sectionsRound]
  refine .ifMatch ?_ .leave
  exact .behind (steady_of_follows (fun _ => follows_lines before)) (fun _ => .done)

/-- Each further routine takes its word. -/
theorem roundsAdvance_routines : RoundsAdvance s routinesRound := by
  intro before
  rw [routinesRound]
  refine .behind .peekKind (fun kind => ?_)
  split
  · exact .andThen (advances_procedureDeclaration s) (fun _ => .done)
  · exact .andThen (advances_functionDeclaration s) (fun _ => .done)
  · exact .leave

/-- A program may declare nothing. -/
theorem steady_globalDeclarations : Steady s globalDeclarations :=
  steady_of_follows (follows_globalDeclarations s)

theorem advances_program : Advances s program :=
  advances_of_follows (follows_program s)

/-- A statement of one keyword moves on by that keyword. -/
theorem keywordStatement_eq {v : List Token} {i : Nat} {t : Token} {make : Span → Stmt}
    (h : v[i]? = some t) (hlt : i + 1 < v.length) :
    keywordStatement make v i = some (.ok (make t.span), i + 1) :=
  bind_of_ok (advance_eq h hlt)

end Grammar

/-! ## Calls -/

/-- A call from `i` that leaves the cursor at `j`: it ends there as a walk does that moves on, and it is
    what reading one program off the rest of the stream gives. -/
structure Call (s : Stream) (i : Nat) (answer : Except Halt Program) (j : Nat) : Prop where
  ends : Ends s (fun _ => True) i answer j
  answers : answer = (s.drop i).next.1.mapError .rejected
  rest : s.drop j = (s.drop i).next.2

/-- A call is determined by what is read off the stream. -/
theorem Call.unique {s : Stream} {i j k : Nat} {answer : Except Halt Program}
    {result : Except SyntaxError Program} (h : Call s i answer j) (hk : k < s.toList.length)
    (hnext : (s.drop i).next = (result, s.drop k)) : answer = result.mapError .rejected ∧ j = k := by
  refine ⟨by rw [h.answers, hnext], ?_⟩
  have htokens : s.tokens.drop j = s.tokens.drop k := by
    have hrest := h.rest
    rw [hnext] at hrest
    exact congrArg Stream.tokens hrest
  have hlength := congrArg List.length htokens
  rw [List.length_drop, List.length_drop] at hlength
  have hj := h.ends.reaches.inRange
  rw [s.length_toList] at hj hk
  omega

/-- Calls one after the other, each from where the one before it has left the cursor. -/
inductive Session (s : Stream) : Nat → List (Except Halt Program × Nat) → Prop where
  | nil {i : Nat} : Session s i []
  | cons {i j : Nat} {answer : Except Halt Program} {more : List (Except Halt Program × Nat)} :
      Call s i answer j → Session s j more → Session s i ((answer, j) :: more)

/-- Every call ends, from every index. -/
theorem exists_call {s : Stream} {i : Nat} (hi : i < s.toList.length) :
    ∃ answer j, program s.toList i = some (answer, j) ∧ Call s i answer j := by
  obtain ⟨answer, j, hrun, hends⟩ := advances_program s i hi
  obtain ⟨j', _, hrest, hread⟩ := (follows_program s s.tokens.length).tracks hi (Nat.le_add_left _ _)
  rw [hrun] at hread
  cases hread
  obtain ⟨hanswer, hbehind⟩ := Stream.next_eq_reader (s.drop i)
  have htokens : (s.drop i).tokens = s.tokens.drop i := rfl
  rw [htokens, hrest] at hanswer hbehind
  refine ⟨_, j, hrun, hends, ?_, hbehind.symm⟩
  rw [hanswer]
  cases (Reader.of Parser.program (s.tokens.drop i)).1 with
  | ok tree => rfl
  | error e => rfl

/-- **Calls one after the other** answer as the stream does, each from where the one before it stopped.
    -/
theorem session_calls {s : Stream} (n : Nat) {i : Nat} (hi : i < s.toList.length) :
    ∃ answers, calls s.toList n i = some answers ∧ Session s i answers ∧
      answers.map Prod.fst = ((s.drop i).take n).map (Except.mapError .rejected) := by
  induction n generalizing i with
  | zero => exact ⟨[], rfl, .nil, rfl⟩
  | succ n ih =>
      obtain ⟨answer, j, hrun, hcall⟩ := exists_call hi
      obtain ⟨more, hmore, hsession, hanswers⟩ := ih hcall.ends.reaches.inRange
      refine ⟨(answer, j) :: more, ?_, .cons hcall hsession, ?_⟩
      · rw [calls, hrun]
        show (calls s.toList n j >>= fun more => some ((answer, j) :: more)) = _
        rw [hmore]
        rfl
      · rw [Stream.take, List.map_cons, List.map_cons, hanswers, hcall.rest, hcall.answers]

/-- Over all calls together the cursor moves forward, in range, and past no end-of-stream token. -/
theorem Session.reaches {s : Stream} {i : Nat} {answers : List (Except Halt Program × Nat)}
    (h : Session s i answers) : ∀ a ∈ answers, Reaches s i a.2 := by
  induction h with
  | nil => exact nofun
  | cons hcall _ ih =>
      intro a ha
      rcases List.mem_cons.mp ha with rfl | ha
      · exact hcall.ends.reaches
      · exact hcall.ends.reaches.trans (ih a ha)

/-- What holds of the walks of the grammar on a stream. -/
structure Progress (s : Stream) : Prop where
  program : Advances s program
  globalDeclarations : Steady s globalDeclarations
  varDeclaration : Advances s varDeclaration
  procedureDeclaration : Advances s procedureDeclaration
  functionDeclaration : Advances s functionDeclaration
  optionalParams : Steady s optionalParams
  param : Advances s param
  names : Advances s names
  typeName : Advances s typeName
  block : Advances s block
  statement : Advances s statement
  assignOrCall : Advances s assignOrCall
  ifStatement : Advances s ifStatement
  whileStatement : Advances s whileStatement
  writeStatement : Advances s writeStatement
  returnStatement : Advances s returnStatement
  /-- A keyword is taken without a look at it, by callers that have looked. -/
  keywordStatement : ∀ make i t, s.toList[i]? = some t → t.kind ≠ .eof →
    Reaches s i (i + 1) ∧ keywordStatement make s.toList i = some (.ok (make t.span), i + 1)
  expression : Advances s expression
  sum : Advances s sum
  product : Advances s product
  factor : Advances s factor
  callArguments : Advances s callArguments
  optionalExpressions : Steady s optionalExpressions
  sectionsLoop : LoopAdvances s sections.run sectionsRound
  linesLoop : LoopAdvances s lines.run linesRound
  routinesLoop : LoopAdvances s routines.run routinesRound
  namesLoop : LoopAdvances s (items .comma expectIdentifier).run (listRound .comma expectIdentifier)
  paramsLoop : LoopAdvances s (items .semicolon Cursor.param).run (listRound .semicolon Cursor.param)
  blockLoop : LoopAdvances s blockLoop blockRound
  sumLoop : LoopAdvances s sumLoop sumRound
  productLoop : LoopAdvances s productLoop productRound
  expressionsLoop : LoopAdvances s expressionsLoop expressionsRound

/-- Every walk of the grammar gets on, from every index of every stream. -/
theorem progress (s : Stream) : Progress s where
  program := advances_program s
  globalDeclarations := steady_globalDeclarations s
  varDeclaration := advances_varDeclaration s
  procedureDeclaration := advances_procedureDeclaration s
  functionDeclaration := advances_functionDeclaration s
  optionalParams := steady_optionalParams s
  param := advances_param s
  names := advances_names s
  typeName := .typeName
  block := advances_block s
  statement := advances_statement s
  assignOrCall := advances_assignOrCall s
  ifStatement := advances_ifStatement s
  whileStatement := advances_whileStatement s
  writeStatement := advances_writeStatement s
  returnStatement := advances_returnStatement s
  keywordStatement _ _ _ ht hne :=
    ⟨.step ht hne, keywordStatement_eq ht (Reaches.lt_of_ne_eof ht hne).1⟩
  expression := advances_expression s
  sum := advances_sum s
  product := advances_product s
  factor := advances_factor s
  callArguments := advances_callArguments s
  optionalExpressions := steady_optionalExpressions s
  sectionsLoop := ⟨isLoop_sections, roundsAdvance_sections s⟩
  linesLoop := ⟨isLoop_lines, roundsAdvance_lines s⟩
  routinesLoop := ⟨isLoop_routines, roundsAdvance_routines s⟩
  namesLoop := ⟨isLoop_items _ _, roundsAdvance_list s (advances_identifier s).steady⟩
  paramsLoop := ⟨isLoop_items _ _, roundsAdvance_list s (advances_param s).steady⟩
  blockLoop := ⟨isLoop_blockLoop, roundsAdvance_block s⟩
  sumLoop := ⟨isLoop_sumLoop, roundsAdvance_sum s⟩
  productLoop := ⟨isLoop_productLoop, roundsAdvance_product s⟩
  expressionsLoop := ⟨isLoop_expressionsLoop, roundsAdvance_expressions s⟩

/-- **A cursor gets on and stays in range.** A list of tokens is read unless it ends in the last column. If it
    is read, with its end written behind it if it has none, then from every index every walk of the grammar
    ends, at an index in range that is not smaller, with no end-of-stream token passed, and a failure is the
    error at the token where the cursor rests. A walk that gives a declaration, a parameter, a block, a
    statement or an expression has moved on, and so has a round of a loop that goes round again. And any
    number of calls, one after the other and also after failures, end that way and give what reading as
    many programs off the stream gives. -/
theorem cursor_progresses (ts : List Token) :
    (Program.ofTokens? ts = none ↔ EndsInLastColumn ts) ∧
    ∀ s, Stream.ofTokens? ts = some s →
      (s.toList = ts ∨ s.toList = ts ++ [s.last]) ∧ Progress s ∧
      ∀ n, ∃ answers, calls s.toList n 0 = some answers ∧ Session s 0 answers ∧
        (∀ a ∈ answers, Reaches s 0 a.2) ∧
        answers.map Prod.fst = (s.take n).map (Except.mapError .rejected) := by
  refine ⟨Program.ofTokens?_eq_none, fun s hs => ⟨prefix_toList hs, progress s, fun n => ?_⟩⟩
  have hstart : 0 < s.toList.length := by
    rw [s.length_toList]
    exact Nat.succ_pos _
  obtain ⟨answers, hcalls, hsession, hanswers⟩ := session_calls n hstart
  exact ⟨answers, hcalls, hsession, hsession.reaches, hanswers⟩

/-- Two programs with stray tokens behind them: two calls give the programs, and two more fail at the
    end-of-stream token in the middle. -/
theorem cursor_progresses_twoPrograms :
    Stream.ofTokens? twoPrograms.toList = some twoPrograms ∧
    ∃ first second e, calls twoPrograms.toList 4 0 =
        some [(.ok first, 3), (.ok second, 6), (.error (.rejected e), 6), (.error (.rejected e), 6)] ∧
      e.found = "end-of-stream" ∧ e.span = ⟨21, 21, 1, 22⟩ := by
  have hstream := Stream.ofTokens?_toList twoPrograms
  refine ⟨hstream, ?_⟩
  obtain ⟨_, hread⟩ := cursor_progresses twoPrograms.toList
  obtain ⟨answers, hcalls, hsession, _, hanswers⟩ := (hread _ hstream).2.2 4
  obtain ⟨first, hfirst⟩ := next_of_sentence (sentence_emptyProgram 1)
  obtain ⟨second, hsecond⟩ := next_of_sentence (sentence_emptyProgram 12)
  have hone : (twoPrograms.drop 0).next = (.ok first, twoPrograms.drop 3) := hfirst _ _
  have htwo : (twoPrograms.drop 3).next = (.ok second, twoPrograms.drop 6) := hsecond _ _
  have hthree : (twoPrograms.drop 6).next =
      (.error ⟨"'begin'", "end-of-stream", ⟨21, 21, 1, 22⟩⟩, twoPrograms.drop 6) := by
    have hfail : Reader.of Parser.program (twoPrograms.drop 6).tokens =
        (.error .blockBegin, (twoPrograms.drop 6).tokens) := by
      rw [Parser.of_program]
      exact Parser.program_eof _ _
    obtain ⟨hanswer, hrest⟩ := Stream.next_eq_reader (twoPrograms.drop 6)
    rw [hfail] at hanswer hrest
    exact Prod.ext hanswer hrest
  have hlen : answers.length = 4 := by
    rw [← List.length_map Prod.fst, hanswers, List.length_map]
    rfl
  match answers, hlen, hsession with
  | [(_, _), (_, _), (_, _), (_, _)], _, .cons h₁ (.cons h₂ (.cons h₃ (.cons h₄ .nil))) =>
      obtain ⟨rfl, rfl⟩ := h₁.unique (by decide) hone
      obtain ⟨rfl, rfl⟩ := h₂.unique (by decide) htwo
      obtain ⟨rfl, rfl⟩ := h₃.unique (by decide) hthree
      obtain ⟨rfl, rfl⟩ := h₄.unique (by decide) hthree
      exact ⟨first, second, _, hcalls, rfl, rfl⟩

end Cursor
end TinyPascal
