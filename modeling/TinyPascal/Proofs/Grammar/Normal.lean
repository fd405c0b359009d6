import TinyPascal.Proofs.Grammar.Written

/-!
# `Proofs.Grammar.Normal` — the tokens of a tree, but for what leaves no trace

Three things that a program may spell out or leave out are not in its tree: the semicolons of empty
statements, a `var` in front of every declaration of variables but the first, and the parentheses of a
procedure without parameters. Brought into one form, the tokens of a tree are the ones it prints as.

## Contents
- **The normal form.** `normal` brings the kinds of a program into the form that trees print in.
- **Canonical.** `Program.Written.canonical`: only canonical trees are written at all.
- **Normal.** `Program.Written.normal_eq`: what is written for a tree has its print as normal form.
-/

namespace TinyPascal

open TinyPascal.Parser (tyWord)

/-! ## The normal form -/

/-- Variables are declared in front of the first of these words. -/
def endsVars : Token.Kind → Bool
  | .keyword .procedure | .keyword .function | .keyword .begin => true
  | _ => false

/-- Put a token in front of declarations of variables: a name behind a semicolon gets a `var`. -/
def putVar (kind : Token.Kind) (behind : List Token.Kind) : List Token.Kind :=
  match kind, behind with
  | .punct .semicolon, .ident name :: more =>
    .punct .semicolon :: .keyword .var :: .ident name :: more
  | kind, behind => kind :: behind

/-- Take an empty pair of parentheses away from behind a name. -/
def dropParens : List Token.Kind → List Token.Kind
  | .ident name :: .punct .lparen :: .punct .rparen :: more => .ident name :: more
  | kinds => kinds

/-- Put a token in front of others. A semicolon is left out in front of another one and of an `end`, and
    behind a `begin`: the statement between the two is empty. -/
def putCode (kind : Token.Kind) (behind : List Token.Kind) : List Token.Kind :=
  match kind with
  | .punct .semicolon =>
    if behind.head? = some (.punct .semicolon) ∨ behind.head? = some (.keyword .end) then behind
    else .punct .semicolon :: behind
  | .keyword .begin =>
    .keyword .begin :: (if behind.head? = some (.punct .semicolon) then behind.tail else behind)
  | .keyword .procedure => .keyword .procedure :: dropParens behind
  | kind => kind :: behind

/-- The kinds of a program with a `var` in front of each declaration of variables, without the semicolons
    of empty statements, and without the parentheses of procedures that have no parameters. -/
def normal (kinds : List Token.Kind) : List Token.Kind :=
  (kinds.takeWhile (fun k => !endsVars k)).foldr putVar [] ++
    (kinds.dropWhile (fun k => !endsVars k)).foldr putCode []

section Putting

variable {behind : List Token.Kind}

@[simp] theorem putCode_ident (x : String) : putCode (.ident x) behind = .ident x :: behind := rfl

theorem putCode_keyword {word : Keyword} (hb : word ≠ .begin) (hp : word ≠ .procedure) :
    putCode (.keyword word) behind = .keyword word :: behind := by
  cases word
  all_goals first | rfl | exact absurd rfl hb | exact absurd rfl hp

theorem putCode_punct {mark : Punct} (h : mark ≠ .semicolon) :
    putCode (.punct mark) behind = .punct mark :: behind := by
  cases mark
  all_goals first | rfl | exact absurd rfl h

@[simp] theorem putCode_op (op : BinOp) : putCode op.kind behind = op.kind :: behind := by
  cases op
  all_goals rfl

@[simp] theorem putCode_boolWord (value : Bool) :
    putCode (.keyword (boolWord value)) behind = .keyword (boolWord value) :: behind := by
  cases value
  all_goals rfl

@[simp] theorem putCode_tyWord (ty : Ty) :
    putCode (.keyword (tyWord ty)) behind = .keyword (tyWord ty) :: behind := by
  cases ty
  all_goals rfl

end Putting

/-! ## Canonical -/

section Canonical

variable {P : Span → List Token → Prop}

mutual

/-- An expression that is written on a tier fits it. -/
theorem Expr.Written.canonical : ∀ {tier : Tier} {e : Expr} {ts : List Token}, e.Written P tier ts →
    e.canonical tier = true
  | _, _, _, .int _ => by rw [Expr.canonical]
  | _, _, _, .bool _ => by rw [Expr.canonical]
  | _, _, _, .var _ => by rw [Expr.canonical]
  | _, _, _, .paren hinner _ => by
      rw [Expr.canonical]
      exact hinner.canonical
  | _, _, _, .not hoperand _ => by
      rw [Expr.canonical]
      exact hoperand.canonical
  | _, _, _, .binary hop hl hr _ => by
      rw [Expr.canonical, hop, hl.canonical, hr.canonical]
      rfl
  | _, _, _, .call _ hargs _ => by
      rw [Expr.canonical]
      exact hargs.canonical

/-- Arguments that are written are canonical, one by one. -/
theorem ExprsWritten.canonical : ∀ {es : List Expr} {ts : List Token}, ExprsWritten P es ts →
    canonicalArgs es = true
  | _, _, .none => by rw [canonicalArgs]
  | _, _, .one he => by
      rw [canonicalArgs, canonicalArgs, he.canonical]
      rfl
  | _, _, .more he hes => by
      rw [canonicalArgs, he.canonical, hes.canonical]
      rfl

end

mutual

/-- A statement that is written is canonical, with all that is inside it. -/
theorem Stmt.Written.canonical : ∀ {s : Stmt} {ts : List Token}, s.Written P ts →
    s.canonical = true
  | _, _, .assign _ he _ => by
      rw [Stmt.canonical]
      exact he.canonical
  | _, _, .call _ hes _ => by
      rw [Stmt.canonical]
      exact hes.canonical
  | _, _, .returnNone _ => by
      rw [Stmt.canonical]
      rfl
  | _, _, .returnSome he _ => by
      rw [Stmt.canonical]
      exact he.canonical
  | _, _, .ifThen hc hy _ => by
      rw [Stmt.canonical, hc.canonical, hy.canonical]
      rfl
  | _, _, .ifElse hc hy hn _ => by
      rw [Stmt.canonical, hc.canonical, hy.canonical, hn.canonical]
      rfl
  | _, _, .while hc hb _ => by
      rw [Stmt.canonical, hc.canonical, hb.canonical]
      rfl
  | _, _, .break _ => by rw [Stmt.canonical]
  | _, _, .continue _ => by rw [Stmt.canonical]
  | _, _, .write hes _ => by
      rw [Stmt.canonical]
      exact hes.canonical

theorem Block.Written.canonical : ∀ {b : Block} {ts : List Token}, b.Written P ts →
    b.canonical = true
  | _, _, .mk hss _ => by
      rw [Block.canonical]
      exact hss.canonical

/-- Statements that are written are canonical, one by one. -/
theorem StmtsWritten.canonical : ∀ {ss : List Stmt} {ts : List Token}, StmtsWritten P ss ts →
    canonicalStmts ss = true
  | _, _, .done => by rw [canonicalStmts]
  | _, _, .skip hss => hss.canonical
  | _, _, .next hs hss => by
      rw [canonicalStmts, hs.canonical, hss.canonical]
      rfl
  | _, _, .last hs => by
      rw [canonicalStmts, canonicalStmts, hs.canonical]
      rfl

end

variable {ts : List Token}

/-- A line of variables that is written declares at least one. -/
theorem VarsWritten.canonical {opened : Bool} {ds : List VarDecl} (h : VarsWritten P opened ds ts) :
    ∀ d ∈ ds, d.names ≠ [] := by
  have hone : ∀ {d : VarDecl} {us : List Token}, d.Written P us → d.names ≠ [] := by
    intro d us hd
    obtain ⟨hne, _, _⟩ := hd
    exact hne
  induction h with
  | none =>
      intro d hd
      cases hd
  | opening hd _ ih => exact List.forall_mem_cons.mpr ⟨hone hd, ih⟩
  | line hd _ ih => exact List.forall_mem_cons.mpr ⟨hone hd, ih⟩

/-- What holds of everything that is written holds of each item of a list that is. -/
theorem Listed.forall_mem {α : Type} {mark : Punct} {W : α → List Token → Prop} {as : List α}
    {Q : α → Prop} (h : Listed mark W as ts) (hW : ∀ a us, W a us → Q a) : ∀ a ∈ as, Q a := by
  induction h with
  | none =>
      intro a ha
      cases ha
  | one ha => exact List.forall_mem_singleton.mpr (hW _ _ ha)
  | more ha _ ih => exact List.forall_mem_cons.mpr ⟨hW _ _ ha, ih⟩

theorem ParamsWritten.names_ne_nil {groups : List Param} (h : ParamsWritten P groups ts) :
    ∀ p ∈ groups, p.names ≠ [] := by
  obtain ⟨hgroups⟩ := h
  refine hgroups.forall_mem (fun p us hp => ?_)
  obtain ⟨hne, _, _⟩ := hp
  exact hne

theorem Routine.Written.canonical {r : Routine} (h : r.Written P ts) :
    (∀ p ∈ r.params, p.names ≠ []) ∧ r.body.canonical = true := by
  cases h with
  | bare _ hb _ =>
      refine ⟨fun p hp => ?_, hb.canonical⟩
      cases hp
  | procedure _ hps hb _ => exact ⟨hps.names_ne_nil, hb.canonical⟩
  | function _ hps hb _ => exact ⟨hps.names_ne_nil, hb.canonical⟩

/-- Routines that are written have canonical parts, one by one. -/
theorem RoutinesWritten.canonical {rs : List Routine} (h : RoutinesWritten P rs ts) :
    ∀ r ∈ rs, (∀ p ∈ r.params, p.names ≠ []) ∧ r.body.canonical = true := by
  induction h with
  | none =>
      intro r hr
      cases hr
  | more hr _ ih => exact List.forall_mem_cons.mpr ⟨hr.canonical, ih⟩

theorem varsFirst_append (vars : List VarDecl) (routines : List Routine) :
    varsFirst (vars.map .vars ++ routines.map .routine) = true := by
  induction vars with
  | cons d ds ih => exact ih
  | nil =>
      cases routines with
      | nil => rfl
      | cons r rs => simp [varsFirst, Decl.isRoutine]

/-- **A tree that is written is canonical.** -/
theorem Program.Written.canonical {tree : Program} (h : tree.Written P ts) :
    tree.canonical = true := by
  cases h with
  | @mk vars routines main _ _ _ _ _ hvars hroutines hmain _ =>
      have hall : (vars.map Decl.vars ++ routines.map Decl.routine).all Decl.canonical = true := by
        rw [List.all_append, List.all_map, List.all_map, Bool.and_eq_true, List.all_eq_true,
          List.all_eq_true]
        constructor
        · intro d hd
          simpa [Decl.canonical] using hvars.canonical d hd
        · intro r hr
          simpa [Decl.canonical] using hroutines.canonical r hr
      rw [Program.canonical, varsFirst_append, hall, hmain.canonical]
      rfl

end Canonical

/-! ## Normal -/

section Normal

variable {P : Span → List Token → Prop} {ts : List Token}

/-- What is put in front of the given kinds for a list of tokens. -/
abbrev putAll (ts : List Token) (behind : List Token.Kind) : List Token.Kind :=
  (ts.map Token.kind).foldr putCode behind

theorem putAll_cons (t : Token) (behind : List Token.Kind) :
    putAll (t :: ts) behind = putCode t.kind (putAll ts behind) := rfl

theorem putAll_append (ts us : List Token) (behind : List Token.Kind) :
    putAll (ts ++ us) behind = putAll ts (putAll us behind) := by
  rw [putAll, List.map_append, List.foldr_append]

theorem putAll_one (t : Token) (behind : List Token.Kind) :
    putAll [t] behind = putCode t.kind behind := rfl

/-- Parentheses stay around what is put between them. -/
theorem putAll_parens {opening closing : Span} {inside : List Token.Kind}
    (h : ∀ behind, putAll ts behind = inside ++ behind) (behind : List Token.Kind) :
    putAll (⟨.punct .lparen, opening⟩ :: (ts ++ [⟨.punct .rparen, closing⟩])) behind =
      parens inside ++ behind := by
  rw [putAll_cons, putAll_append, h, putAll_one, putCode_punct (by decide), putCode_punct (by decide),
    parens]
  simp

mutual

/-- Expressions have no tokens to leave out. -/
theorem Expr.Written.putAll_eq : ∀ {tier : Tier} {e : Expr} {ts : List Token}, e.Written P tier ts →
    ∀ behind, putAll ts behind = e.print ++ behind
  | _, _, _, .int _, _ => by
      rw [Expr.print]
      rfl
  | _, _, _, .bool _, _ => by
      rw [Expr.print, putAll_one, putCode_boolWord]
      rfl
  | _, _, _, .var _, _ => by
      rw [Expr.print]
      rfl
  | _, _, _, .paren hinner _, _ => by
      rw [Expr.print, putAll_parens hinner.putAll_eq]
  | _, _, _, .not hoperand _, _ => by
      rw [Expr.print, putAll_cons, hoperand.putAll_eq]
      rfl
  | _, _, _, .binary _ hl hr _, behind => by
      rw [Expr.print, putAll_append, putAll_cons, hr.putAll_eq, putCode_op, hl.putAll_eq]
      simp
  | _, _, _, .call hcallee hargs _, behind => by
      obtain ⟨_, ⟨⟩, hkind, _⟩ := hcallee
      rw [Expr.print, printEach_eq_map, putAll_cons, putAll_parens hargs.putAll_eq, hkind]
      rfl

/-- Arguments leave nothing out: they become their print. -/
theorem ExprsWritten.putAll_eq : ∀ {es : List Expr} {ts : List Token}, ExprsWritten P es ts →
    ∀ behind, putAll ts behind = between .comma (es.map Expr.print) ++ behind
  | _, _, .none, _ => rfl
  | _, _, .one he, behind => he.putAll_eq behind
  | _, _, .more he hes, behind => by
      rw [putAll_append, putAll_cons, hes.putAll_eq, putCode_punct (by decide), he.putAll_eq]
      simp [between]

end

/-- Neither a semicolon nor an `end` comes first: a semicolon in front is not the one of an empty
    statement. -/
def GoesOn (kinds : List Token.Kind) : Prop :=
  kinds.head? ≠ some (.punct .semicolon) ∧ kinds.head? ≠ some (.keyword .end)

theorem GoesOn.putCode {kinds : List Token.Kind} (h : GoesOn kinds) :
    putCode (.punct .semicolon) kinds = .punct .semicolon :: kinds := by
  show (if _ then _ else _) = _
  rw [if_neg]
  rintro (hs | he)
  · exact h.1 hs
  · exact h.2 he

/-- A `begin` takes no semicolon away where there is none. -/
theorem putCode_begin {behind : List Token.Kind} (hs : behind.head? ≠ some (.punct .semicolon)) :
    putCode (.keyword .begin) behind = .keyword .begin :: behind := by
  show _ :: (if _ then _ else _) = _
  rw [if_neg hs]

/-- A statement starts with neither a semicolon nor an `end`. -/
theorem Stmt.print_starts (s : Stmt) :
    ∃ kind more, s.print = kind :: more ∧ kind ≠ .punct .semicolon ∧ kind ≠ .keyword .end := by
  cases s with
  | «return» value _ =>
      cases value
      all_goals
        rw [Stmt.print]
        exact ⟨_, _, rfl, by decide, by decide⟩
  | _ =>
      rw [Stmt.print]
      refine ⟨_, _, rfl, ?_, ?_⟩
      · intro h
        cases h
      · intro h
        cases h

/-- The statements of a block and its `end`, as they are printed in front of other tokens. -/
abbrev printBody (ss : List Stmt) (behind : List Token.Kind) : List Token.Kind :=
  between .semicolon (printStmts ss) ++ .keyword .end :: behind

/-- Two statements in a row have a semicolon in between. -/
theorem printBody_cons (s next : Stmt) (ss : List Stmt) (behind : List Token.Kind) :
    printBody (s :: next :: ss) behind =
      s.print ++ .punct .semicolon :: printBody (next :: ss) behind := by
  simp [printBody, printStmts, between]

/-- A body with a statement starts with that statement. -/
theorem printBody_goesOn (s : Stmt) (ss : List Stmt) (behind : List Token.Kind) :
    GoesOn (printBody (s :: ss) behind) := by
  obtain ⟨kind, more, hprint, hs, he⟩ := s.print_starts
  have hhead : (printBody (s :: ss) behind).head? = some kind := by
    cases ss with
    | nil => simp [printBody, printStmts, between, hprint]
    | cons next ss => rw [printBody_cons, hprint, List.cons_append, List.head?_cons]
  unfold GoesOn
  rw [hhead]
  exact ⟨fun h => hs (Option.some.inj h), fun h => he (Option.some.inj h)⟩

/-- The kinds are the body of a block. A semicolon may be left in front of its first statement. -/
def IsBody (ss : List Stmt) (behind kinds : List Token.Kind) : Prop :=
  kinds = printBody ss behind ∨ (ss ≠ [] ∧ kinds = .punct .semicolon :: printBody ss behind)

/-- A semicolon in front of the body of a block stays in front of a statement, and only once. -/
theorem IsBody.semicolon {ss : List Stmt} {behind kinds : List Token.Kind}
    (h : IsBody ss behind kinds) :
    (ss = [] ∧ putCode (.punct .semicolon) kinds = printBody ss behind) ∨
      (ss ≠ [] ∧ putCode (.punct .semicolon) kinds = .punct .semicolon :: printBody ss behind) := by
  rcases h with rfl | ⟨hne, rfl⟩
  · cases ss with
    | nil => exact .inl ⟨rfl, rfl⟩
    | cons s ss =>
        exact .inr ⟨List.cons_ne_nil _ _, (printBody_goesOn s ss behind).putCode⟩
  · exact .inr ⟨hne, rfl⟩

mutual

/-- **A statement becomes its print**, whatever stands behind it. -/
theorem Stmt.Written.putAll_eq : ∀ {s : Stmt} {ts : List Token}, s.Written P ts →
    ∀ behind, putAll ts behind = s.print ++ behind
  | _, _, .assign hx he _, behind => by
      obtain ⟨_, ⟨⟩, hkind, _⟩ := hx
      rw [Stmt.print, putAll_cons, putAll_cons, he.putAll_eq, hkind]
      rfl
  | _, _, .call hx hes _, behind => by
      obtain ⟨_, ⟨⟩, hkind, _⟩ := hx
      rw [Stmt.print, putAll_cons, putAll_parens hes.putAll_eq, hkind]
      rfl
  | _, _, .returnNone _, _ => by
      rw [Stmt.print]
      rfl
  | _, _, .returnSome he _, _ => by
      rw [Stmt.print, putAll_cons, he.putAll_eq]
      rfl
  | _, _, .ifThen hc hy _, _ => by
      rw [Stmt.print, putAll_cons, putAll_append, putAll_cons, hy.putAll_eq,
        putCode_keyword (by decide) (by decide), hc.putAll_eq]
      simp [putCode_keyword]
  | _, _, .ifElse hc hy hn _, _ => by
      rw [Stmt.print, putAll_cons, putAll_append, putAll_cons, putAll_append, putAll_cons,
        hn.putAll_eq, putCode_keyword (by decide) (by decide), hy.putAll_eq,
        putCode_keyword (by decide) (by decide), hc.putAll_eq]
      simp [putCode_keyword]
  | _, _, .while hc hb _, _ => by
      rw [Stmt.print, putAll_cons, putAll_append, putAll_cons, hb.putAll_eq,
        putCode_keyword (by decide) (by decide), hc.putAll_eq]
      simp [putCode_keyword]
  | _, _, .break _, _ => by
      rw [Stmt.print]
      rfl
  | _, _, .continue _, _ => by
      rw [Stmt.print]
      rfl
  | _, _, .write hes _, _ => by
      rw [Stmt.print, putAll_cons, putAll_parens hes.putAll_eq]
      rfl

/-- A block becomes its print. -/
theorem Block.Written.putAll_eq : ∀ {b : Block} {ts : List Token}, b.Written P ts →
    ∀ behind, putAll ts behind = b.print ++ behind
  | _, _, @Block.Written.mk _ ss ts _ _ hss _, behind => by
      rw [Block.print, putAll_cons]
      have hbody : putCode (.keyword .begin) (putAll ts behind) =
          .keyword .begin :: printBody ss behind := by
        rcases hss.putAll_eq behind with hkinds | ⟨_, hkinds⟩
        · rw [hkinds]
          cases ss with
          | nil => rfl
          | cons s ss => exact putCode_begin (printBody_goesOn s ss behind).1
        · rw [hkinds]
          rfl
      rw [hbody]
      simp

/-- Statements up to an `end` become their print, up to semicolons of empty statements. -/
theorem StmtsWritten.putAll_eq : ∀ {ss : List Stmt} {ts : List Token}, StmtsWritten P ss ts →
    ∀ behind, IsBody ss behind (putAll ts behind)
  | _, _, .done, _ => .inl rfl
  | _, _, .skip hss, behind => by
      rw [putAll_cons]
      rcases (hss.putAll_eq behind).semicolon with ⟨_, hkinds⟩ | ⟨hne, hkinds⟩
      · exact .inl hkinds
      · exact .inr ⟨hne, hkinds⟩
  | _, _, @StmtsWritten.next _ s ss _ _ _ hs hss, behind => by
      refine .inl ?_
      rw [putAll_append, putAll_cons, hs.putAll_eq]
      -- the semicolon behind the statement stays if another one follows
      rcases (hss.putAll_eq behind).semicolon with ⟨rfl, hkinds⟩ | ⟨hne, hkinds⟩
      · rw [hkinds]
        rfl
      · rw [hkinds]
        obtain ⟨next, more, rfl⟩ := List.exists_cons_of_ne_nil hne
        rw [printBody_cons]
  | _, _, .last hs, behind => by
      refine .inl ?_
      rw [putAll_append, hs.putAll_eq]
      rfl

end

end Normal

/-! ## Declarations -/

section Declarations

variable {P : Span → List Token → Prop} {ts : List Token}

/-- What stands between marks is a mark or part of an item. -/
theorem mem_between {mark : Punct} {items : List (List Token.Kind)} {kind : Token.Kind}
    (h : kind ∈ between mark items) : kind = .punct mark ∨ ∃ item ∈ items, kind ∈ item := by
  induction items using between.induct with
  | case1 => cases h
  | case2 item => exact .inr ⟨item, List.mem_cons_self, h⟩
  | case3 item next more ih =>
      rw [between, List.mem_append, List.mem_cons] at h
      rcases h with h | h | h
      · exact .inr ⟨item, List.mem_cons_self, h⟩
      · exact .inl h
      · rcases ih h with hmark | ⟨w, hw, hkind⟩
        · exact .inl hmark
        · exact .inr ⟨w, List.mem_cons_of_mem _ hw, hkind⟩

/-- The first of several items comes first. -/
theorem between_cons (mark : Punct) (item : List Token.Kind) (more : List (List Token.Kind))
    (behind : List Token.Kind) : ∃ rest, between mark (item :: more) ++ behind = item ++ rest := by
  cases more with
  | nil => exact ⟨behind, rfl⟩
  | cons next more =>
      refine ⟨.punct mark :: between mark (next :: more) ++ behind, ?_⟩
      rw [between, List.append_assoc]

/-- A list that is written has the kinds of its items, with marks in between. -/
theorem Listed.kinds_eq {α : Type} {mark : Punct} {W : α → List Token → Prop}
    {f : α → List Token.Kind} {as : List α} (h : Listed mark W as ts)
    (hW : ∀ a us, W a us → us.map Token.kind = f a) :
    ts.map Token.kind = between mark (as.map f) := by
  induction h with
  | none => rfl
  | one ha => exact hW _ _ ha
  | more ha _ ih =>
      rw [List.map_append, List.map_cons, hW _ _ ha, ih]
      rfl

theorem kinds_of_names {names : List Ident} (h : Listed .comma (Ident.Written P) names ts) :
    ts.map Token.kind = printNames names := by
  refine h.kinds_eq (fun x us hx => ?_)
  obtain ⟨t, rfl, hkind, _⟩ := hx
  rw [List.map_singleton, hkind]

/-- Names and commas. -/
theorem mem_printNames {names : List Ident} {kind : Token.Kind} (h : kind ∈ printNames names) :
    kind = .punct .comma ∨ ∃ x, kind = .ident x := by
  rcases mem_between h with hmark | ⟨item, hitem, hkind⟩
  · exact .inl hmark
  · obtain ⟨x, _, rfl⟩ := List.mem_map.mp hitem
    exact .inr ⟨x.name, List.mem_singleton.mp hkind⟩

/-- The print of names starts with a name. -/
theorem printNames_starts {names : List Ident} (h : names ≠ []) (behind : List Token.Kind) :
    ∃ x more, printNames names ++ behind = .ident x :: more := by
  obtain ⟨first, more, rfl⟩ := List.exists_cons_of_ne_nil h
  obtain ⟨rest, hrest⟩ := between_cons .comma [.ident first.name]
    (more.map (fun x => [.ident x.name])) behind
  exact ⟨first.name, rest, hrest⟩

/-- Only a semicolon makes room for a `var`. -/
theorem foldr_putVar {kinds behind : List Token.Kind} (h : .punct .semicolon ∉ kinds) :
    kinds.foldr putVar behind = kinds ++ behind := by
  induction kinds with
  | nil => rfl
  | cons kind kinds ih =>
      rw [List.mem_cons, not_or] at h
      rw [List.foldr_cons, ih h.2]
      unfold putVar
      split
      · exact absurd rfl h.1
      · rfl

/-- Variables get their `var`, also the first one if a semicolon is put in front of it. -/
theorem VarsWritten.putVar_eq {opened : Bool} {ds : List VarDecl} (h : VarsWritten P opened ds ts) :
    putVar (.punct .semicolon) ((ts.map Token.kind).foldr putVar []) =
        .punct .semicolon :: ds.flatMap VarDecl.print ∧
      (opened = false → (ts.map Token.kind).foldr putVar [] = ds.flatMap VarDecl.print) := by
  -- one declaration, in front of what is known of the others
  have hline : ∀ {d : VarDecl} {us : List Token} {kinds behind : List Token.Kind}, d.Written P us →
      putVar (.punct .semicolon) kinds = .punct .semicolon :: behind →
      (∃ x more, (us.map Token.kind).foldr putVar kinds = .ident x :: more) ∧
        .keyword .var :: (us.map Token.kind).foldr putVar kinds = d.print ++ behind := by
    intro d us kinds behind hd hkinds
    obtain ⟨hne, hnames, _⟩ := hd
    have hplain : ∀ names : List Ident, .punct .semicolon ∉ printNames names := by
      intro names hmem
      rcases mem_printNames hmem with hkind | ⟨x, hkind⟩
      · cases hkind
      · cases hkind
    rw [List.map_append, List.foldr_append, kinds_of_names hnames, foldr_putVar (hplain _)]
    refine ⟨printNames_starts hne _, ?_⟩
    rw [VarDecl.print]
    simp only [List.map_cons, List.map_nil, List.foldr_cons, List.foldr_nil, hkinds]
    simp [putVar]
  induction h with
  | none => exact ⟨rfl, fun _ => rfl⟩
  | @opening _ d ds us vs _ hd _ ih =>
      obtain ⟨_, hprint⟩ := hline hd ih.1
      have hfold : (us ++ vs).map Token.kind = us.map Token.kind ++ vs.map Token.kind :=
        List.map_append
      rw [List.map_cons, List.foldr_cons, hfold, List.foldr_append, List.flatMap_cons, ← hprint]
      exact ⟨rfl, fun _ => rfl⟩
  | @line d ds us vs hd _ ih =>
      obtain ⟨⟨x, more, hstarts⟩, hprint⟩ := hline hd ih.1
      rw [List.map_append, List.foldr_append, List.flatMap_cons, ← hprint, hstarts]
      refine ⟨rfl, fun hopened => ?_⟩
      cases hopened

/-- No word of a declaration of variables ends the declarations. -/
theorem VarsWritten.not_endsVars {opened : Bool} {ds : List VarDecl} (h : VarsWritten P opened ds ts) :
    ∀ kind ∈ ts.map Token.kind, endsVars kind = false := by
  have hline : ∀ {d : VarDecl} {us : List Token}, d.Written P us →
      ∀ kind ∈ us.map Token.kind, endsVars kind = false := by
    intro d us hd kind hkind
    obtain @⟨_, ty, _, _, _, _, _, _, hnames, _⟩ := hd
    rw [List.map_append, kinds_of_names hnames, List.mem_append] at hkind
    rcases hkind with hkind | hkind
    · rcases mem_printNames hkind with rfl | ⟨x, rfl⟩
      · rfl
      · rfl
    · simp only [List.map_cons, List.map_nil, List.mem_cons, List.not_mem_nil, or_false] at hkind
      rcases hkind with rfl | rfl | rfl
      · rfl
      · cases ty
        all_goals rfl
      · rfl
  induction h with
  | none =>
      intro kind hkind
      cases hkind
  | opening hd _ ih =>
      rw [List.map_cons, List.map_append]
      exact List.forall_mem_cons.mpr ⟨rfl, List.forall_mem_append.mpr ⟨hline hd, ih⟩⟩
  | line hd _ ih =>
      rw [List.map_append]
      exact List.forall_mem_append.mpr ⟨hline hd, ih⟩

/-- Lists with marks have no tokens to leave out, if their items have none and the mark stays in front of
    each of these. -/
theorem Listed.putAll_eq {α : Type} {mark : Punct} {W : α → List Token → Prop}
    {f : α → List Token.Kind} {as : List α} (h : Listed mark W as ts)
    (hW : ∀ a us, W a us → ∀ behind, putAll us behind = f a ++ behind)
    (hmark : ∀ a us, W a us → ∀ behind,
      putCode (.punct mark) (f a ++ behind) = .punct mark :: (f a ++ behind)) :
    ∀ behind, putAll ts behind = between mark (as.map f) ++ behind := by
  intro behind
  induction h with
  | none => rfl
  | one ha => exact hW _ _ ha behind
  | @more a b as us vs _ ha hb ih =>
      obtain ⟨rest, hrest⟩ := between_cons mark (f b) (as.map f) behind
      have hput : putCode (.punct mark) (f b ++ rest) = .punct mark :: (f b ++ rest) := by
        cases hb with
        | one hb => exact hmark b _ hb rest
        | more hb _ => exact hmark b _ hb rest
      rw [putAll_append, putAll_cons, ih, List.map_cons, hrest, hput, ← hrest, hW _ _ ha]
      simp [between]

/-- A group of parameters becomes its print. -/
theorem Param.Written.putAll_eq {p : Param} (h : p.Written P ts) (behind : List Token.Kind) :
    putAll ts behind = p.print ++ behind := by
  cases h with
  | @mk names ty us colon stop _ _ hnames _ =>
      have hput : ∀ kinds, putAll us kinds = printNames names ++ kinds := by
        refine hnames.putAll_eq (fun x vs hx kinds => ?_) (fun _ _ _ _ => rfl)
        obtain ⟨t, rfl, hkind, _⟩ := hx
        rw [putAll_one, hkind]
        rfl
      rw [putAll_append, hput, Param.print, List.append_assoc]
      show _ ++ putCode _ (putCode _ behind) = _
      rw [putCode_tyWord]
      rfl

theorem Param.Written.print_starts {p : Param} (h : p.Written P ts) (behind : List Token.Kind) :
    ∃ x more, p.print ++ behind = .ident x :: more := by
  cases h with
  | mk hne _ _ =>
      rw [Param.print, List.append_assoc]
      exact printNames_starts hne _

/-- Groups of parameters become their print. -/
theorem ParamsWritten.putAll_eq {groups : List Param} (h : ParamsWritten P groups ts)
    (behind : List Token.Kind) : putAll ts behind = printParams groups ++ behind := by
  cases h with
  | mk hgroups =>
      refine putAll_parens (hgroups.putAll_eq (fun p us hp => hp.putAll_eq) (fun p us hp kinds => ?_)) _
      obtain ⟨x, more, hstarts⟩ := hp.print_starts kinds
      rw [hstarts]
      rfl

/-- Only an empty pair of parentheses is dropped. -/
theorem dropParens_printParams {groups : List Param} (h : ParamsWritten P groups ts) (name : String)
    (behind : List Token.Kind) :
    dropParens (.ident name :: (printParams groups ++ .punct .semicolon :: behind)) =
      .ident name :: ((if groups.isEmpty then [] else printParams groups) ++
        .punct .semicolon :: behind) := by
  obtain ⟨hgroups⟩ := h
  cases hgroups with
  | none => rfl
  | one hp =>
      obtain ⟨x, more, hstarts⟩ := hp.print_starts [.punct .rparen]
      simp only [printParams, parens, List.map_cons, List.map_nil, between, hstarts]
      rfl
  | @more p q ps _ _ _ hp _ =>
      obtain ⟨x, more, hstarts⟩ := hp.print_starts (.punct .semicolon ::
        (between .semicolon ((q :: ps).map Param.print) ++ [.punct .rparen]))
      have hprint : printParams (p :: q :: ps) = .punct .lparen :: .ident x :: more := by
        rw [← hstarts]
        simp [printParams, parens, between]
      rw [hprint]
      rfl

theorem Block.print_starts (b : Block) (behind : List Token.Kind) :
    ∃ more, b.print ++ behind = .keyword .begin :: more := by
  obtain ⟨ss, span⟩ := b
  rw [Block.print]
  exact ⟨_, rfl⟩

theorem Block.goesOn (b : Block) (behind : List Token.Kind) : GoesOn (b.print ++ behind) := by
  obtain ⟨more, hmore⟩ := b.print_starts behind
  rw [hmore]
  exact ⟨by simp, by simp⟩

/-- A routine becomes its print; an empty pair of parentheses of a procedure is gone. -/
theorem Routine.Written.putAll_eq {r : Routine} (h : r.Written P ts) {behind : List Token.Kind}
    (hbehind : GoesOn behind) : putAll ts behind = r.print ++ behind := by
  -- the body and the semicolons around it
  have hbody : ∀ {body : Block} {us : List Token} {semi stop : Span}, body.Written P us →
      putAll (⟨.punct .semicolon, semi⟩ :: (us ++ [⟨.punct .semicolon, stop⟩])) behind =
        .punct .semicolon :: (body.print ++ .punct .semicolon :: behind) := by
    intro body us semi stop hb
    rw [putAll_cons, putAll_append, putAll_one, hbehind.putCode, hb.putAll_eq]
    exact (body.goesOn _).putCode
  cases h with
  | bare hx hb _ =>
      obtain ⟨_, ⟨⟩, hkind, _⟩ := hx
      rw [putAll_cons, putAll_cons, hbody hb, hkind, Routine.print]
      simp [putCode, dropParens]
  | procedure hx hps hb _ =>
      obtain ⟨_, ⟨⟩, hkind, _⟩ := hx
      rw [putAll_cons, putAll_cons, putAll_append, hbody hb, hps.putAll_eq, hkind, Routine.print]
      show _ :: dropParens _ = _
      rw [putCode_ident, dropParens_printParams hps]
      simp
  | function hx hps hb _ =>
      obtain ⟨_, ⟨⟩, hkind, _⟩ := hx
      rw [putAll_cons, putAll_cons, putAll_append, putAll_cons, putAll_cons, hbody hb, putCode_tyWord,
        putCode_punct (by decide), hps.putAll_eq, hkind, Routine.print]
      simp [putCode_keyword]

theorem Routine.print_starts (r : Routine) (behind : List Token.Kind) :
    ∃ kind more, r.print ++ behind = kind :: more ∧ endsVars kind = true := by
  rw [Routine.print]
  split
  · exact ⟨_, _, rfl, rfl⟩
  · exact ⟨_, _, rfl, rfl⟩

theorem goesOn_of_endsVars {kind : Token.Kind} {more : List Token.Kind} (h : endsVars kind = true) :
    GoesOn (kind :: more) := by
  constructor
  · rintro ⟨⟩
    cases h
  · rintro ⟨⟩
    cases h

/-- Routines become their prints, one behind the other. -/
theorem RoutinesWritten.putAll_eq {rs : List Routine} (h : RoutinesWritten P rs ts)
    {behind : List Token.Kind} (hbehind : GoesOn behind) :
    putAll ts behind = rs.flatMap Routine.print ++ behind := by
  induction h with
  | none => rfl
  | @more r rs us vs hr _ ih =>
      have hgoes : GoesOn (rs.flatMap Routine.print ++ behind) := by
        cases rs with
        | nil => exact hbehind
        | cons next rs =>
            rw [List.flatMap_cons, List.append_assoc]
            obtain ⟨kind, more, hstarts, hends⟩ := next.print_starts (rs.flatMap Routine.print ++ behind)
            rw [hstarts]
            exact goesOn_of_endsVars hends
      rw [putAll_append, ih, hr.putAll_eq hgoes, List.flatMap_cons, List.append_assoc]

/-- Behind the variables stands the first routine or the main block. -/
theorem endsVars_of_written {rs : List Routine} {main : Block} {us vs : List Token}
    (hr : RoutinesWritten P rs us) (hm : main.Written P vs) (behind : List Token) :
    ∃ kind more, (us ++ (vs ++ behind)).map Token.kind = kind :: more ∧ endsVars kind = true := by
  cases hr with
  | none =>
      obtain ⟨_, _⟩ := hm
      exact ⟨_, _, rfl, rfl⟩
  | more hr _ =>
      cases hr
      all_goals exact ⟨_, _, rfl, rfl⟩

/-- The normal form is cut at the first word that ends the declarations of variables. -/
theorem normal_append {vars : List Token.Kind} {kind : Token.Kind} {more : List Token.Kind}
    (hvars : ∀ k ∈ vars, endsVars k = false) (hkind : endsVars kind = true) :
    normal (vars ++ kind :: more) =
      vars.foldr putVar [] ++ (kind :: more).foldr putCode [] := by
  have hpass : ∀ k ∈ vars, (!endsVars k) = true := by
    intro k hk
    rw [hvars k hk]
    rfl
  have hstop : ¬ (!endsVars kind) = true := by
    rw [hkind]
    decide
  rw [normal, List.takeWhile_append_of_pos hpass, List.dropWhile_append_of_pos hpass,
    List.takeWhile_cons_of_neg (p := fun k => !endsVars k) hstop,
    List.dropWhile_cons_of_neg (p := fun k => !endsVars k) hstop, List.append_nil]

/-- **The tokens of a tree are the ones that it prints as**, but for what leaves no trace in it. -/
theorem Program.Written.normal_eq {tree : Program} (h : tree.Written P ts) :
    normal (ts.map Token.kind) = tree.print := by
  cases h with
  | @mk vars routines main us vs ws stop _ hvars hroutines hmain _ =>
      obtain ⟨kind, more, hkinds, hends⟩ := endsVars_of_written hroutines hmain [⟨.punct .dot, stop⟩]
      have hcode : (kind :: more).foldr putCode [] =
          routines.flatMap Routine.print ++ (main.print ++ [.punct .dot]) := by
        rw [← hkinds]
        show putAll (vs ++ (ws ++ [⟨.punct .dot, stop⟩])) [] = _
        rw [putAll_append, putAll_append, hmain.putAll_eq]
        exact hroutines.putAll_eq (main.goesOn _)
      rw [List.map_append, hkinds, normal_append hvars.not_endsVars hends, hvars.putVar_eq.2 rfl, hcode,
        Program.print, List.flatMap_append, List.flatMap_map, List.flatMap_map, List.append_assoc]
      rfl

/-- Empty statements and parentheses go, a second declaration gets its `var`. -/
example : normal [.keyword .var, .ident "x", .punct .colon, .keyword .integer, .punct .semicolon,
    .ident "y", .punct .colon, .keyword .boolean, .punct .semicolon, .keyword .procedure, .ident "p",
    .punct .lparen, .punct .rparen, .punct .semicolon, .keyword .begin, .punct .semicolon,
    .keyword .break, .punct .semicolon, .punct .semicolon, .keyword .end, .punct .semicolon] =
    [.keyword .var, .ident "x", .punct .colon, .keyword .integer, .punct .semicolon,
    .keyword .var, .ident "y", .punct .colon, .keyword .boolean, .punct .semicolon,
    .keyword .procedure, .ident "p", .punct .semicolon, .keyword .begin, .keyword .break,
    .keyword .end, .punct .semicolon] := by
  decide

end Declarations

end TinyPascal
