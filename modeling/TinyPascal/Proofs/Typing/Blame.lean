import TinyPascal.Proofs.Outcome
import TinyPascal.Proofs.Tree.Spans
import TinyPascal.Typing.Program

/-!
# `Proofs.Typing.Blame` — violations point into the tree

Every rule picks the place at which its violation is reported: the name that is not declared, the operand
of the wrong type, the whole call. This module shows that **it is always the place of a node of the
tree**: what holds of the places of all nodes holds of the place of the violation.

## Contents
- **Places.** `Outline.All P o`: `P` holds of all places of an outline. `Laid.all`: it does if it holds of
  the stretches of tokens that the outline lies over.
- **Expressions.** `Blames P x`: if `x` fails, it is at a place where `P` holds. `blames_type`.
- **Statements and programs.** `Check.Blames`, `blames_check`, `blame_program`.
-/

namespace TinyPascal

variable {P : Span → Prop}

/-! ## Places -/

/-- `P` holds of the place of the node and of the places of all its parts. -/
inductive Outline.All (P : Span → Prop) : Outline → Prop where
  | mk {span parts} : P span → (∀ o ∈ parts, Outline.All P o) → Outline.All P (.node span parts)

theorem Outline.all_node {span : Span} {parts : List Outline} :
    (Outline.node span parts).All P ↔ P span ∧ ∀ o ∈ parts, o.All P := by
  constructor
  · rintro ⟨hspan, hparts⟩
    exact ⟨hspan, hparts⟩
  · rintro ⟨hspan, hparts⟩
    exact .mk hspan hparts

/-- The places of an outline cover stretches of the tokens that it lies over. -/
theorem Laid.all {os : List Outline} {ts : List Token} (h : Laid os ts)
    (hP : ∀ span us, us <:+: ts → Covers span us → P span) : ∀ o ∈ os, o.All P := by
  induction h with
  | none => exact nofun
  | @next span parts os ts us vs hspan _ _ ihparts ihos =>
      have hus : us <:+: ts ++ (us ++ vs) := ⟨ts, vs, by simp⟩
      have hvs : vs <:+: ts ++ (us ++ vs) := ⟨ts ++ us, [], by simp⟩
      have hparts := ihparts (fun span ws hws => hP span ws (hws.trans hus))
      have hos := ihos (fun span ws hws => hP span ws (hws.trans hvs))
      exact List.forall_mem_cons.mpr ⟨.mk (hP span us hus hspan) hparts, hos⟩

theorem Expr.all_span {e : Expr} (h : e.outline.All P) : P e.span := by
  cases e <;> exact (Outline.all_node.mp (by rwa [Expr.outline] at h)).1

/-! ## Expressions -/

/-- **A violation, if there is one, is reported where `P` holds.** -/
def Blames {α : Type} (P : Span → Prop) (x : Except SemanticError α) : Prop :=
  ∀ e, x = .error e → P e.span

namespace Blames

variable {α β : Type} {x : Except SemanticError α}

theorem ok (a : α) : Blames P (.ok a) :=
  nofun

theorem error {violation : Violation} {span : Span} (h : P span) :
    Blames P (.error ⟨violation, span⟩ : Except SemanticError α) := by
  rintro e ⟨⟩
  exact h

theorem bind {f : α → Except SemanticError β} (hx : Blames P x) (hf : ∀ a, Blames P (f a)) :
    Blames P (x >>= f) := by
  intro e h
  rcases Except.bind_eq_error.mp h with h | ⟨a, _, h⟩
  · exact hx e h
  · exact hf a e h

/-- A type that is not the expected one is blamed on the place that is asked about. -/
theorem expectType {context : String} {expected found : Ty} {span : Span} (h : P span) :
    Blames P (TinyPascal.expectType context expected found span) := by
  unfold TinyPascal.expectType
  split
  · exact .ok ()
  · exact .error h

variable {t : Table}

theorem resolve {name : String} {span : Span} (h : P span) : Blames P (t.resolve name span) := by
  unfold Table.resolve
  split
  · exact .ok _
  · exact .error h

theorem storageType {name : String} {span : Span} (h : P span) :
    Blames P (t.storageType name span) := by
  unfold Table.storageType
  refine (resolve h).bind fun symbol => ?_
  split
  · exact .ok _
  · exact .error h

/-- A call is blamed on the name of the routine, or on the call as a whole. -/
theorem signatureFor {callee : Ident} {count : Nat} {span : Span} (hcallee : P callee.span)
    (h : P span) : Blames P (t.signatureFor callee count span) := by
  unfold Table.signatureFor
  refine (resolve hcallee).bind fun symbol => ?_
  split
  · exact .error hcallee
  · split
    · exact .ok _
    · exact .error h

/-- An operator blames one of its operands. -/
theorem resultType {op : BinOp} {left right : Ty} {leftSpan rightSpan : Span} (hleft : P leftSpan)
    (hright : P rightSpan) : Blames P (op.resultType left right leftSpan rightSpan) := by
  unfold BinOp.resultType
  dsimp only
  split
  · exact (expectType hleft).bind fun _ => (expectType hright).bind fun _ => .ok _
  · split
    · exact (expectType hleft).bind fun _ => (expectType hright).bind fun _ => .ok _
    · exact (expectType hright).bind fun _ => .ok _

end Blames

mutual

/-- **A violation in an expression is reported at one of its nodes.** -/
theorem blames_type : ∀ (e : Expr) (t : Table), e.outline.All P → Blames P (e.type t)
  | .int _ _, _, _ | .bool _ _, _, _ => .ok _
  | .var name span, t, h => by
      rw [Expr.outline, Outline.all_node] at h
      exact .storageType h.1
  | .paren inner _, t, h => by
      rw [Expr.outline, Outline.all_node] at h
      exact blames_type inner t (h.2 _ List.mem_cons_self)
  | .not operand _, t, h => by
      rw [Expr.outline, Outline.all_node] at h
      have hoperand := h.2 _ List.mem_cons_self
      exact (blames_type operand t hoperand).bind fun _ =>
        (Blames.expectType (Expr.all_span hoperand)).bind fun _ => .ok _
  | .binary op left right _, t, h => by
      rw [Expr.outline, Outline.all_node] at h
      have hleft := h.2 _ List.mem_cons_self
      have hright := h.2 _ (List.mem_cons_of_mem _ List.mem_cons_self)
      exact (blames_type left t hleft).bind fun _ => (blames_type right t hright).bind fun _ =>
        .resultType (Expr.all_span hleft) (Expr.all_span hright)
  | .call callee args span, t, h => by
      rw [Expr.outline, Outline.all_node, List.forall_mem_cons] at h
      obtain ⟨hspan, hcallee, hargs⟩ := h
      refine (Blames.signatureFor (Outline.all_node.mp hcallee).1 hspan).bind fun signature => ?_
      refine (blames_checkArgs args t callee.name 1 signature.params hargs).bind fun _ => ?_
      split
      · exact .ok _
      · exact .error hspan

/-- A call blames its arguments for their types. -/
theorem blames_checkArgs : ∀ (args : List Expr) (t : Table) (callee : String) (number : Nat)
    (params : List Ty), (∀ o ∈ outlineArgs args, o.All P) →
    Blames P (checkArgs t callee number params args)
  | [], _, _, _, [], _ | [], _, _, _, _ :: _, _ | _ :: _, _, _, _, [], _ => .ok _
  | arg :: args, t, callee, number, expected :: params, h => by
      rw [outlineArgs, List.forall_mem_cons] at h
      obtain ⟨harg, hargs⟩ := h
      exact (blames_type arg t harg).bind fun _ =>
        (Blames.expectType (Expr.all_span harg)).bind fun _ =>
          blames_checkArgs args t callee (number + 1) params hargs

end

/-- A call blames itself, its name or its arguments. -/
theorem blames_callResult {callee : Ident} {args : List Expr} {span : Span} (t : Table)
    (hspan : P span) (hcallee : callee.outline.All P) (hargs : ∀ o ∈ outlineArgs args, o.All P) :
    Blames P (callResult t callee args span) :=
  (Blames.signatureFor (Outline.all_node.mp hcallee).1 hspan).bind fun _ =>
    (blames_checkArgs args t callee.name 1 _ hargs).bind fun _ => .ok _

theorem blames_checkValues (es : List Expr) (t : Table) (h : ∀ o ∈ outlineArgs es, o.All P) :
    Blames P (checkValues t es) := by
  induction es with
  | nil => exact .ok _
  | cons e es ih =>
      rw [outlineArgs, List.forall_mem_cons] at h
      have hvalue : Blames P (discard (e.type t)) := (blames_type e t h.1).bind fun _ => .ok _
      exact hvalue.bind fun _ => ih h.2

theorem blames_checkCondition {context : String} {cond : Expr} (t : Table) (h : cond.outline.All P) :
    Blames P (checkCondition context cond t) :=
  (blames_type cond t h).bind fun _ => .expectType (Expr.all_span h)

/-- An assignment blames its target or its value. -/
theorem blames_checkAssign {target : Ident} {value : Expr} (t : Table) (htarget : target.outline.All P)
    (hvalue : value.outline.All P) : Blames P (checkAssign target value t) :=
  (Blames.storageType (Outline.all_node.mp htarget).1).bind fun _ =>
    (blames_type value t hvalue).bind fun _ => .expectType (Expr.all_span hvalue)

/-- A `return` blames itself or its value. -/
theorem blames_checkReturn {ctx : Context} {value : Option Expr} {span : Span} (t : Table)
    (hspan : P span) (hvalue : ∀ e, value = some e → e.outline.All P) :
    Blames P (checkReturn ctx value span t) := by
  unfold checkReturn
  split
  · exact .error hspan
  · split
    · have he := hvalue _ rfl
      exact (blames_type _ t he).bind fun _ => .expectType (Expr.all_span he)
    · exact .error hspan
    · exact .error (Expr.all_span (hvalue _ rfl))
    · exact .ok _

theorem blames_checkInLoop {ctx : Context} {keyword : String} {span : Span} (h : P span) :
    Blames P (checkInLoop ctx keyword span) := by
  unfold checkInLoop
  split
  · exact .error h
  · exact .ok _

/-! ## Statements -/

/-- A violation that a check meets, from whatever table, is reported where `P` holds. -/
def Check.Blames {α : Type} (P : Span → Prop) (check : EStateM SemanticError Table α) : Prop :=
  ∀ t e t', check t = .error e t' → P e.span

namespace Check.Blames

variable {α β : Type} {c : EStateM SemanticError Table α}

theorem pure (a : α) : Check.Blames P (Pure.pure a) :=
  nofun

/-- Two checks in a row blame what one of them blames. -/
theorem bind {f : α → EStateM SemanticError Table β} (hc : Check.Blames P c)
    (hf : ∀ a, Check.Blames P (f a)) : Check.Blames P (c >>= f) := by
  intro t e t' h
  rcases EStateM.bind_eq_error.mp h with h | ⟨a, t₁, _, h⟩
  · exact hc t e t' h
  · exact hf a t₁ e t' h

/-- A check that only looks at the table blames what the look blames. -/
theorem ofTable {f : Table → Except SemanticError α} (h : ∀ t, TinyPascal.Blames P (f t)) :
    Check.Blames P (Check.ofTable f) := by
  intro t e t' he
  unfold Check.ofTable at he
  cases hf : f t with
  | ok a =>
      rw [hf] at he
      cases he
  | error e' =>
      rw [hf] at he
      cases he
      exact h t e hf

theorem inScope {c : Check} (hc : Check.Blames P c) : Check.Blames P (Check.inScope c) := by
  intro t e t' he
  unfold Check.inScope at he
  cases hr : c t.enter with
  | ok u t₁ =>
      rw [hr] at he
      cases he
  | error e' t₁ =>
      rw [hr] at he
      cases he
      exact hc t.enter e t₁ hr

/-- A refusal of the table is blamed on the name that it is about. -/
theorem change {span : Span} {f : Table → Except SymbolError Table} (h : P span) :
    Check.Blames P (Check.change span f) := by
  intro t e t' he
  unfold Check.change at he
  split at he
  · cases he
  · cases he
    exact h

end Check.Blames

mutual

/-- **A violation in a statement is reported at one of its nodes.** -/
theorem blames_check : ∀ (s : Stmt) (ctx : Context), s.outline.All P → Check.Blames P (s.check ctx)
  | .assign target value _, ctx, h => by
      rw [Stmt.outline, Outline.all_node, List.forall_mem_cons] at h
      obtain ⟨_, htarget, hrest⟩ := h
      have hvalue := hrest _ List.mem_cons_self
      unfold Stmt.check
      exact (Check.Blames.ofTable fun t => blames_checkAssign t htarget hvalue).bind fun _ =>
        .change (Outline.all_node.mp htarget).1
  | .call callee args span, ctx, h => by
      rw [Stmt.outline, Outline.all_node, List.forall_mem_cons] at h
      obtain ⟨hspan, hcallee, hargs⟩ := h
      unfold Stmt.check
      exact (Check.Blames.ofTable fun t => blames_callResult t hspan hcallee hargs).bind fun _ =>
        .pure _
  | .return none span, ctx, h => by
      rw [Stmt.outline, Outline.all_node] at h
      unfold Stmt.check
      exact .ofTable fun t => blames_checkReturn t h.1 nofun
  | .return (some value) span, ctx, h => by
      rw [Stmt.outline, Outline.all_node] at h
      have hvalue : ∀ e, some value = some e → e.outline.All P := by
        rintro e ⟨⟩
        exact h.2 _ List.mem_cons_self
      unfold Stmt.check
      exact .ofTable fun t => blames_checkReturn t h.1 hvalue
  | .ifThen cond yes _, ctx, h => by
      rw [Stmt.outline, Outline.all_node] at h
      simp only [List.forall_mem_cons] at h
      obtain ⟨_, hcond, hyes, _⟩ := h
      unfold Stmt.check
      exact (Check.Blames.ofTable fun t => blames_checkCondition t hcond).bind fun _ =>
        blames_check_block yes ctx hyes
  | .ifElse cond yes no _, ctx, h => by
      rw [Stmt.outline, Outline.all_node] at h
      simp only [List.forall_mem_cons] at h
      obtain ⟨_, hcond, hyes, hno, _⟩ := h
      unfold Stmt.check
      exact (Check.Blames.ofTable fun t => blames_checkCondition t hcond).bind fun _ =>
        (blames_check_block yes ctx hyes).bind fun _ => blames_check_block no ctx hno
  | .while cond body _, ctx, h => by
      rw [Stmt.outline, Outline.all_node] at h
      simp only [List.forall_mem_cons] at h
      obtain ⟨_, hcond, hbody, _⟩ := h
      unfold Stmt.check
      exact (Check.Blames.ofTable fun t => blames_checkCondition t hcond).bind fun _ =>
        blames_check_block body _ hbody
  | .break span, ctx, h => by
      rw [Stmt.outline, Outline.all_node] at h
      unfold Stmt.check
      exact .ofTable fun _ => blames_checkInLoop h.1
  | .continue span, ctx, h => by
      rw [Stmt.outline, Outline.all_node] at h
      unfold Stmt.check
      exact .ofTable fun _ => blames_checkInLoop h.1
  | .write args _, ctx, h => by
      rw [Stmt.outline, Outline.all_node] at h
      unfold Stmt.check
      exact .ofTable fun t => blames_checkValues args t h.2

/-- A block blames places in its statements. -/
theorem blames_check_block : ∀ (b : Block) (ctx : Context), b.outline.All P →
    Check.Blames P (b.check ctx)
  | ⟨statements, _⟩, ctx, h => by
      rw [Block.outline, Outline.all_node] at h
      unfold Block.check
      exact (blames_checkAll statements ctx h.2).inScope

/-- Statements in a row blame places in one of them. -/
theorem blames_checkAll : ∀ (ss : List Stmt) (ctx : Context), (∀ o ∈ outlineStmts ss, o.All P) →
    Check.Blames P (checkAll ctx ss)
  | [], _, _ => by
      unfold checkAll
      exact .pure _
  | s :: more, ctx, h => by
      rw [outlineStmts, List.forall_mem_cons] at h
      unfold checkAll
      exact (blames_check s ctx h.1).bind fun _ => blames_checkAll more ctx h.2

end

/-! ## Programs -/

/-- A variable that is declared twice is blamed where its name stands again. -/
theorem blames_declareVars {ty : Ty} {names : List Ident} (h : ∀ name ∈ names, P name.span) :
    Check.Blames P (declareVars ty names) := by
  induction names with
  | nil => exact .pure _
  | cons name names ih =>
      rw [List.forall_mem_cons] at h
      exact (Check.Blames.change h.1).bind fun _ => ih h.2

/-- A parameter that is declared twice is blamed where its name stands again. -/
theorem blames_declareParams {params : List (Ident × Ty)} (h : ∀ param ∈ params, P param.1.span) :
    Check.Blames P (declareParams params) := by
  induction params with
  | nil => exact .pure _
  | cons param params ih =>
      rw [List.forall_mem_cons] at h
      exact (Check.Blames.change h.1).bind fun _ => ih h.2

/-- The names of a list are parts of the node that lists them. -/
theorem span_of_names {names : List Ident} (h : ∀ o ∈ names.map Ident.outline, o.All P) :
    ∀ name ∈ names, P name.span := by
  intro name hname
  have hall := h _ (List.mem_map_of_mem hname)
  exact (Outline.all_node.mp hall).1

/-- A routine blames its parameters or places in its body. -/
theorem blames_check_routine {r : Routine} (h : r.outline.All P) : Check.Blames P r.check := by
  unfold Routine.outline at h
  rw [Outline.all_node, List.forall_mem_cons, List.forall_mem_append] at h
  obtain ⟨_, _, hparams, hrest⟩ := h
  have hbody := hrest _ List.mem_cons_self
  have hnames : ∀ param ∈ Param.flatten r.params, P param.1.span := by
    intro param hparam
    obtain ⟨group, hgroup, hparam⟩ := List.mem_flatMap.mp hparam
    obtain ⟨name, hname, rfl⟩ := List.mem_map.mp hparam
    have hall := hparams _ (List.mem_map_of_mem hgroup)
    exact span_of_names (Outline.all_node.mp hall).2 name hname
  have hstatements : ∀ o ∈ outlineStmts r.body.statements, o.All P := by
    cases hb : r.body with
    | mk statements span =>
        rw [hb, Block.outline, Outline.all_node] at hbody
        exact hbody.2
  unfold Routine.check
  exact ((blames_declareParams hnames).bind fun _ => blames_checkAll _ _ hstatements).inScope

/-- Global names are blamed where they are declared. -/
theorem blames_declareGlobals {ds : List Decl} (h : ∀ o ∈ ds.map Decl.outline, o.All P) :
    Check.Blames P (declareGlobals ds) := by
  induction ds with
  | nil => exact .pure _
  | cons d ds ih =>
      rw [List.map_cons, List.forall_mem_cons] at h
      obtain ⟨hd, hds⟩ := h
      cases d with
      | vars decl =>
          have hnames := span_of_names (Outline.all_node.mp hd).2
          exact (blames_declareVars hnames).bind fun _ => ih hds
      | routine r =>
          have hname := (Outline.all_node.mp hd).2 _ List.mem_cons_self
          exact (Check.Blames.change (Outline.all_node.mp hname).1).bind fun _ => ih hds

/-- Routines blame places in one of them. -/
theorem blames_checkRoutines {ds : List Decl} (h : ∀ o ∈ ds.map Decl.outline, o.All P) :
    Check.Blames P (checkRoutines ds) := by
  induction ds with
  | nil => exact .pure _
  | cons d ds ih =>
      rw [List.map_cons, List.forall_mem_cons] at h
      obtain ⟨hd, hds⟩ := h
      cases d with
      | vars decl => exact ih hds
      | routine r => exact (blames_check_routine hd).bind fun _ => ih hds

/-- **A violation in a program is reported at one of its nodes**: what holds of the places of all nodes
    holds of the place of the violation. -/
theorem blame_program {p : Program} {e : SemanticError} (h : p.check = .error e)
    (hall : p.outline.All P) : P e.span := by
  unfold Program.outline at hall
  rw [Outline.all_node, List.forall_mem_append] at hall
  obtain ⟨_, hdecls, hrest⟩ := hall
  have hmain := hrest _ List.mem_cons_self
  have hchecks : Check.Blames P p.checks :=
    (blames_declareGlobals hdecls).bind fun _ => (blames_checkRoutines hdecls).bind fun _ =>
      blames_check_block p.main {} hmain
  unfold Program.check at h
  cases hrun : p.checks {} with
  | ok u t =>
      rw [hrun] at h
      cases h
  | error e' t =>
      rw [hrun] at h
      cases h
      exact hchecks {} e t hrun

end TinyPascal
