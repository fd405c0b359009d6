import TinyPascal.Proofs.Grammar.Normal
import TinyPascal.Proofs.Grammar.RoundTrip
import TinyPascal.Proofs.Token.Cuts
import TinyPascal.Proofs.Tree.Occurrences
import TinyPascal.Proofs.Tree.Spans

/-!
# `Proofs.Tree.Spelling` — how the identifiers of a text are spelled

A tree that is built by hand may hold any strings as names. The names in the tree of a text are **words**:
they come from tokens, and the scanner makes identifiers out of words only.

## Contents
- **Tokens.** `writable_of_lex`, `isWord_of_lex`.
- **Printed trees.** `Expr.ident_mem_print` up to `Program.ident_mem_print`: every identifier of a tree is
  printed. `ident_mem_of_normal`: what is printed was written.
- **Texts.** `isWord_of_parse`.
-/

namespace TinyPascal

open TinyPascal.Grammar

/-! ## Tokens -/

/-- **The tokens of a text are kinds that a text can hold.** -/
theorem writable_of_lex {source : String} {stream : Stream} (h : lex source = .ok stream)
    {kind : Token.Kind} (hmem : kind ∈ stream.tokens.map Token.kind) : kind.Writable := by
  rw [stream_of_lex h] at hmem
  have hkinds := Lexeme.kinds_locate {} (Lexeme.split source.toList)
  have hclass : kind ∈ ((Lexeme.split source.toList).map Lexeme.cls).filterMap
      Lexeme.Class.kind? := hkinds ▸ hmem
  obtain ⟨cls, hcls, hkind⟩ := List.mem_filterMap.mp hclass
  cases cls with
  | token kind =>
      cases hkind
      exact Lexeme.writable_of_split hcls
  | skip => cases hkind
  | fault fault => cases hkind

/-- The identifiers among the tokens of a text are words. -/
theorem isWord_of_lex {source : String} {stream : Stream} (h : lex source = .ok stream) {x : String}
    (hx : .ident x ∈ stream.tokens.map Token.kind) : isWord x = true :=
  (writable_of_lex h hx).1

/-! ## Printed trees -/

/-- What stands in an item stands in the row of items with marks between them. -/
theorem mem_between_of_mem {mark : Punct} {items : List (List Token.Kind)} {item : List Token.Kind}
    {kind : Token.Kind} (hitem : item ∈ items) (hkind : kind ∈ item) : kind ∈ between mark items := by
  induction items with
  | nil => cases hitem
  | cons first more ih =>
      cases more with
      | nil =>
          rw [List.mem_singleton] at hitem
          exact hitem ▸ hkind
      | cons next more =>
          rcases List.mem_cons.mp hitem with rfl | hitem
          · exact List.mem_append_left _ hkind
          · exact List.mem_append_right _ (List.mem_cons_of_mem _ (ih hitem))

theorem mem_parens {inside : List Token.Kind} {kind : Token.Kind} (h : kind ∈ inside) :
    kind ∈ parens inside :=
  List.mem_cons_of_mem _ (List.mem_append_left _ h)

mutual

/-- Every identifier of an expression is printed. -/
theorem Expr.ident_mem_print : ∀ (e : Expr) {x : String}, x ∈ e.identifiers → .ident x ∈ e.print
  | .int _ _, x, h | .bool _ _, x, h => by cases h
  | .var name _, x, h => by
      obtain rfl := List.mem_singleton.mp h
      exact List.mem_singleton_self _
  | .paren inner _, x, h => mem_parens (inner.ident_mem_print h)
  | .not operand _, x, h => List.mem_cons_of_mem _ (operand.ident_mem_print h)
  | .binary _ left right _, x, h => by
      rcases List.mem_append.mp h with h | h
      · exact List.mem_append_left _ (left.ident_mem_print h)
      · exact List.mem_append_right _ (List.mem_cons_of_mem _ (right.ident_mem_print h))
  | .call callee args _, x, h => by
      rcases List.mem_cons.mp h with rfl | h
      · exact List.mem_cons_self
      · obtain ⟨item, hitem, hx⟩ := ident_mem_printEach args h
        exact List.mem_cons_of_mem _ (mem_parens (mem_between_of_mem hitem hx))

/-- A name in one of the expressions stands in the print of one of them. -/
theorem ident_mem_printEach : ∀ (es : List Expr) {x : String}, x ∈ identifiersOf es →
    ∃ item ∈ printEach es, .ident x ∈ item
  | [], _, h => by cases h
  | e :: es, x, h => by
      rcases List.mem_append.mp h with h | h
      · exact ⟨e.print, List.mem_cons_self, e.ident_mem_print h⟩
      · obtain ⟨item, hitem, hx⟩ := ident_mem_printEach es h
        exact ⟨item, List.mem_cons_of_mem _ hitem, hx⟩

end

theorem ident_mem_printArgs {args : List Expr} {x : String} (h : x ∈ args.flatMap Expr.identifiers) :
    .ident x ∈ printArgs args := by
  obtain ⟨e, he, hx⟩ := List.mem_flatMap.mp h
  exact mem_parens (mem_between_of_mem (List.mem_map_of_mem he) (e.ident_mem_print hx))

mutual

/-- Every identifier of a statement is printed. -/
theorem Stmt.ident_mem_print : ∀ (s : Stmt) {x : String},
    x ∈ s.targets ++ s.exprs.flatMap Expr.identifiers → .ident x ∈ s.print
  | .assign target value _, x, h => by
      simp only [Stmt.targets, Stmt.exprs, List.flatMap_cons, List.flatMap_nil, List.append_nil,
        List.singleton_append, List.mem_cons] at h
      rcases h with rfl | h
      · exact List.mem_cons_self
      · exact List.mem_cons_of_mem _ (List.mem_cons_of_mem _ (value.ident_mem_print h))
  | .call callee args span, x, h => by
      rw [Stmt.targets, Stmt.exprs, List.nil_append, List.flatMap_singleton] at h
      have hprint := (Expr.call callee args span).ident_mem_print h
      rwa [Expr.print, printEach_eq_map] at hprint
  | .return none _, x, h => by cases h
  | .return (some value) _, x, h => by
      simp only [Stmt.targets, Stmt.exprs, Option.toList_some, List.nil_append,
        List.flatMap_singleton] at h
      exact List.mem_cons_of_mem _ (value.ident_mem_print h)
  | .ifThen cond yes _, x, h => by
      have hyes := yes.ident_mem_print (x := x)
      have hcond := cond.ident_mem_print (x := x)
      simp only [Stmt.targets, Stmt.exprs, Stmt.print, Block.identifiers, List.flatMap_cons,
        List.mem_append, List.mem_cons] at *
      grind
  | .ifElse cond yes no _, x, h => by
      have hyes := yes.ident_mem_print (x := x)
      have hno := no.ident_mem_print (x := x)
      have hcond := cond.ident_mem_print (x := x)
      simp only [Stmt.targets, Stmt.exprs, Stmt.print, Block.identifiers, List.flatMap_cons,
        List.flatMap_append, List.mem_append, List.mem_cons] at *
      grind
  | .while cond body _, x, h => by
      have hbody := body.ident_mem_print (x := x)
      have hcond := cond.ident_mem_print (x := x)
      simp only [Stmt.targets, Stmt.exprs, Stmt.print, Block.identifiers, List.flatMap_cons,
        List.mem_append, List.mem_cons] at *
      grind
  | .break _, x, h | .continue _, x, h => by cases h
  | .write args _, x, h => List.mem_cons_of_mem _ (ident_mem_printArgs h)

theorem Block.ident_mem_print : ∀ (b : Block) {x : String}, x ∈ b.identifiers → .ident x ∈ b.print
  | ⟨statements, _⟩, x, h => by
      obtain ⟨item, hitem, hx⟩ := ident_mem_printStmts statements h
      exact List.mem_cons_of_mem _ (List.mem_append_left _ (mem_between_of_mem hitem hx))

/-- Every name of some statements stands in the print of one of them. -/
theorem ident_mem_printStmts : ∀ (ss : List Stmt) {x : String},
    x ∈ targetsOf ss ++ (exprsOf ss).flatMap Expr.identifiers → ∃ item ∈ printStmts ss, .ident x ∈ item
  | [], _, h => by cases h
  | s :: more, x, h => by
      have hs := s.ident_mem_print (x := x)
      have hmore := ident_mem_printStmts more (x := x)
      simp only [targetsOf, exprsOf, printStmts, List.flatMap_append, List.mem_append,
        List.mem_cons] at *
      grind

end

theorem ident_mem_printNames {names : List Ident} {x : String} (h : x ∈ names.map Ident.name) :
    .ident x ∈ printNames names := by
  obtain ⟨name, hname, rfl⟩ := List.mem_map.mp h
  exact mem_between_of_mem (List.mem_map_of_mem hname) (List.mem_singleton_self _)

/-- Every parameter of a routine stands in its printed parameter list. -/
theorem Routine.ident_mem_printParams {r : Routine} {x : String} (h : x ∈ r.paramNames) :
    .ident x ∈ printParams r.params := by
  obtain ⟨⟨name, ty⟩, hparam, rfl⟩ := List.mem_map.mp h
  obtain ⟨group, hgroup, hpair⟩ := List.mem_flatMap.mp hparam
  obtain ⟨name', hname, heq⟩ := List.mem_map.mp hpair
  cases heq
  refine mem_parens (mem_between_of_mem (List.mem_map_of_mem hgroup) ?_)
  exact List.mem_append_left _ (ident_mem_printNames (List.mem_map_of_mem hname))

/-- Every identifier of a declaration is printed. -/
theorem Decl.ident_mem_print (d : Decl) {x : String} (h : x ∈ d.identifiers) : .ident x ∈ d.print := by
  cases d with
  | vars decl => exact List.mem_cons_of_mem _ (List.mem_append_left _ (ident_mem_printNames h))
  | routine r =>
      show .ident x ∈ r.print
      unfold Routine.print
      rcases List.mem_cons.mp h with rfl | h
      · cases r.result <;> exact List.mem_cons_of_mem _ List.mem_cons_self
      rcases List.mem_append.mp h with h | h
      · have hparams := Routine.ident_mem_printParams h
        -- a procedure with a parameter has its parentheses
        have hne : r.params.isEmpty = false := by
          rw [List.isEmpty_eq_false_iff]
          intro hnil
          simp [Routine.paramNames, Param.flatten, hnil] at h
        cases r.result <;> simp [hne, hparams]
      · have hbody := r.body.ident_mem_print h
        cases r.result <;> simp [hbody]

/-- **Every identifier of a program is printed.** -/
theorem Program.ident_mem_print (tree : Program) {x : String} (h : x ∈ tree.identifiers) :
    .ident x ∈ tree.print := by
  rcases List.mem_append.mp h with h | h
  · obtain ⟨d, hd, hx⟩ := List.mem_flatMap.mp h
    exact List.mem_append_left _ (List.mem_flatMap.mpr ⟨d, hd, d.ident_mem_print hx⟩)
  · exact List.mem_append_right _ (List.mem_append_left _ (tree.main.ident_mem_print h))

section Normal

variable {x : String}

/-- A fold that at each step adds no name but that of its kind keeps only names of the list. -/
theorem ident_mem_of_foldr {put : Token.Kind → List Token.Kind → List Token.Kind}
    (hput : ∀ kind behind, .ident x ∈ put kind behind → kind = .ident x ∨ .ident x ∈ behind)
    {kinds : List Token.Kind} (h : .ident x ∈ kinds.foldr put []) : .ident x ∈ kinds := by
  induction kinds with
  | nil => exact h
  | cons kind more ih =>
      rcases hput kind _ h with rfl | h
      · exact List.mem_cons_self
      · exact List.mem_cons_of_mem _ (ih h)

theorem ident_mem_of_putVar (kind : Token.Kind) (behind : List Token.Kind)
    (h : .ident x ∈ putVar kind behind) : kind = .ident x ∨ .ident x ∈ behind := by
  unfold putVar at h
  split at h
  · right
    simpa using h
  · rcases List.mem_cons.mp h with h | h
    · exact .inl h.symm
    · exact .inr h

theorem ident_mem_of_dropParens {kinds : List Token.Kind} (h : .ident x ∈ dropParens kinds) :
    .ident x ∈ kinds := by
  unfold dropParens at h
  split at h
  · simpa using h
  · exact h

theorem ident_mem_of_putCode (kind : Token.Kind) (behind : List Token.Kind)
    (h : .ident x ∈ putCode kind behind) : kind = .ident x ∨ .ident x ∈ behind := by
  unfold putCode at h
  split at h
  · right
    split at h
    · exact h
    · simpa using h
  · right
    simp only [List.mem_cons, reduceCtorEq, false_or] at h
    split at h
    · exact List.mem_of_mem_tail h
    · exact h
  · right
    simp only [List.mem_cons, reduceCtorEq, false_or] at h
    exact ident_mem_of_dropParens h
  · rcases List.mem_cons.mp h with h | h
    · exact .inl h.symm
    · exact .inr h

/-- The normal form of tokens has no identifiers of its own. -/
theorem ident_mem_of_normal {kinds : List Token.Kind} (h : .ident x ∈ normal kinds) :
    .ident x ∈ kinds := by
  rcases List.mem_append.mp h with h | h
  · exact (List.takeWhile_sublist _).subset (ident_mem_of_foldr ident_mem_of_putVar h)
  · exact (List.dropWhile_sublist _).subset (ident_mem_of_foldr ident_mem_of_putCode h)

end Normal

/-! ## Texts -/

/-- **The identifiers of a parsed text are words.** -/
theorem isWord_of_parse {source : String} {tree : Program} (h : parse source = .ok tree) :
    ∀ x ∈ tree.identifiers, isWord x = true := by
  intro x hx
  obtain ⟨stream, hlex, hnext⟩ := parse_eq_ok.mp h
  obtain ⟨pre, htokens, hwritten⟩ := written_of_next covering_true hnext
  have hprint := tree.ident_mem_print hx
  rw [← hwritten.normal_eq] at hprint
  refine isWord_of_lex hlex ?_
  rw [htokens, List.map_append]
  exact List.mem_append_left _ (ident_mem_of_normal hprint)

end TinyPascal
