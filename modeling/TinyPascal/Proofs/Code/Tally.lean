import Mathlib
import TinyPascal.Proofs.Code.Temporaries

/-!
# `Proofs.Code.Tally` — what the code of a program costs

How many names lowering hands out, and how many instructions it gives, can be read off the tree: each
literal, operator and call costs one temporary and the instruction that sets it, and each kind of statement
costs a fixed number of labels and of further instructions, whatever is inside it. So the costs of a program
are **counts of its nodes, at any depth**.

## Contents
- **Nodes.** `Expr.isComputed`; `Stmt.form`, `Program.count`: how many statements of a kind a program has.
- **Costs.** `Stmt.labelCost`, `Stmt.codeCost`: what a statement costs without its expressions and blocks.
  `Costs es ss s s' code`: code that costs what the expressions `es` and the statements `ss` cost.
- **Lowering.** One lemma for each construct, up to `costs_lower_program`.
- **Programs.** `Program.Accounted`: the costs of a program in closed form. `accounted_of_codeWith`.
-/

namespace TinyPascal

/-! ## Nodes -/

/-- Literals, operators and calls; a name or an expression in parentheses needs no temporary of its own. -/
def Expr.isComputed : Expr → Bool
  | .int _ _ | .bool _ _ | .not _ _ | .binary _ _ _ _ | .call _ _ _ => true
  | .var _ _ | .paren _ _ => false

mutual

/-- The temporaries of an expression are counted by the expressions in it that compute something. -/
theorem tempCount_eq_countP : ∀ e : Expr, e.tempCount = (e :: e.nested).countP Expr.isComputed
  | .int _ _ | .bool _ _ | .var _ _ => rfl
  | .paren inner _ => tempCount_eq_countP inner
  | .not operand _ => by
      rw [Expr.tempCount, Expr.nested, tempCount_eq_countP operand,
        List.countP_cons_of_pos (a := Expr.not operand _) rfl]
  | .binary _ left right _ => by
      rw [Expr.tempCount, Expr.nested, List.countP_cons_of_pos (a := Expr.binary _ left right _) rfl,
        List.countP_append, tempCount_eq_countP left, tempCount_eq_countP right]
  | .call _ args _ => by
      rw [Expr.tempCount, Expr.nested, List.countP_cons_of_pos (a := Expr.call _ args _) rfl,
        tempCountOf_eq_countP args]

/-- Counting the temporaries is counting the computed expressions, at any depth. -/
theorem tempCountOf_eq_countP : ∀ es : List Expr, tempCountOf es = (nestedOf es).countP Expr.isComputed
  | [] => rfl
  | e :: es => by
      rw [tempCountOf, nestedOf, List.countP_append, tempCount_eq_countP e, tempCountOf_eq_countP es]

end

/-- The kinds of statements. -/
inductive Stmt.Form where
  | assign | call | return | ifThen | ifElse | while | break | continue | write
deriving DecidableEq, Repr

namespace Stmt

def form : Stmt → Form
  | .assign _ _ _ => .assign
  | .call _ _ _ => .call
  | .return _ _ => .return
  | .ifThen _ _ _ => .ifThen
  | .ifElse _ _ _ _ => .ifElse
  | .while _ _ _ => .while
  | .break _ => .break
  | .continue _ => .continue
  | .write _ _ => .write

/-- The number of values that a statement itself prints. -/
def printed : Stmt → Nat
  | .write args _ => args.length
  | _ => 0

/-! ## Costs -/

/-- The labels that a statement takes, without those of its blocks. An `if` without `else` takes one that
    it does not set. -/
def labelCost : Stmt → Nat
  | .ifThen _ _ _ => 2
  | .ifElse _ _ _ _ => 3
  | .while _ _ _ => 2
  | .assign _ _ _ | .call _ _ _ | .return _ _ | .break _ | .continue _ | .write _ _ => 0

/-- The instructions of a statement, without those of its expressions and of its blocks. -/
def codeCost : Stmt → Nat
  | .assign _ _ _ | .return _ _ | .break _ | .continue _ => 1
  | .call _ _ _ => 0
  | .ifThen _ _ _ => 2
  | .ifElse _ _ _ _ => 6
  | .while _ _ _ => 4
  | .write args _ => args.length

end Stmt

/-- The labels that statements take. -/
def labelCosts (ss : List Stmt) : Nat :=
  (ss.map Stmt.labelCost).sum

/-- The instructions of statements, without those of their expressions. -/
def codeCosts (ss : List Stmt) : Nat :=
  (ss.map Stmt.codeCost).sum

section Sums

variable (st : Stmt) (ss ss' : List Stmt)

@[simp] theorem labelCosts_nil : labelCosts [] = 0 := rfl

@[simp] theorem codeCosts_nil : codeCosts [] = 0 := rfl

@[simp] theorem labelCosts_cons : labelCosts (st :: ss) = st.labelCost + labelCosts ss :=
  List.sum_cons

@[simp] theorem codeCosts_cons : codeCosts (st :: ss) = st.codeCost + codeCosts ss :=
  List.sum_cons

@[simp] theorem labelCosts_append : labelCosts (ss ++ ss') = labelCosts ss + labelCosts ss' := by
  unfold labelCosts
  rw [List.map_append, List.sum_append]

@[simp] theorem codeCosts_append : codeCosts (ss ++ ss') = codeCosts ss + codeCosts ss' := by
  unfold codeCosts
  rw [List.map_append, List.sum_append]

end Sums

/-- **Code that costs what a tree says.** While the supply went from `s` to `s'`, the expressions `es` and
    the statements `ss` were lowered to `code`. -/
structure Costs (es : List Expr) (ss : List Stmt) (s s' : Supply) (code : List Instr) : Prop where
  temps : s'.temps = s.temps + tempCountOf es
  labels : s'.labels = s.labels + labelCosts ss
  length : code.length = tempCountOf es + codeCosts ss

namespace Costs

variable {es es' : List Expr} {ss ss' : List Stmt} {s s₁ s' : Supply} {a b : List Instr}

theorem nothing (s : Supply) : Costs [] [] s s [] :=
  ⟨rfl, rfl, rfl⟩

/-- The costs of two parts add up. -/
theorem append (ha : Costs es ss s s₁ a) (hb : Costs es' ss' s₁ s' b) :
    Costs (es ++ es') (ss ++ ss') s s' (a ++ b) := by
  refine ⟨?_, ?_, ?_⟩
  · rw [hb.temps, ha.temps, tempCountOf_append, Nat.add_assoc]
  · rw [hb.labels, ha.labels, labelCosts_append, Nat.add_assoc]
  · rw [List.length_append, ha.length, hb.length, tempCountOf_append, codeCosts_append]
    omega

end Costs

/-! ## Lowering -/

mutual

/-- The code of an expression sets temporaries and does nothing else. -/
theorem length_lower : ∀ (e : Expr) (k : Nat), (e.lower k).code.length = e.tempCount
  | .int _ _, _ | .bool _ _, _ | .var _ _, _ => rfl
  | .paren inner _, k => length_lower inner k
  | .not operand _, k => by
      simp only [Expr.lower, Expr.tempCount, List.length_append, length_lower operand k,
        List.length_singleton]
  | .binary _ left right _, k => by
      simp only [Expr.lower, Expr.tempCount, List.length_append, length_lower left k,
        length_lower right _, List.length_singleton]
  | .call _ args _, k => by
      simp only [Expr.lower, Expr.tempCount, List.length_append, length_lowerArgs args k,
        List.length_singleton]

theorem length_lowerArgs : ∀ (es : List Expr) (k : Nat),
    (lowerArgs es k).code.length = tempCountOf es
  | [], _ => rfl
  | e :: es, k => by
      simp only [lowerArgs, tempCountOf, List.length_append, length_lower e k, length_lowerArgs es _]

end

/-- The code of a `writeln` has one instruction for each temporary and one for each argument. -/
theorem length_lowerPrints (es : List Expr) (k : Nat) :
    (lowerPrints es k).code.length = tempCountOf es + es.length := by
  induction es generalizing k with
  | nil => rfl
  | cons e es ih =>
      simp only [lowerPrints, tempCountOf, List.length_append, length_lower, ih, List.length_cons,
        List.length_nil]
      omega

namespace Costs

variable {es : List Expr} {ss : List Stmt} {st : Stmt} {s s' : Supply} {body code : List Instr}

/-- A statement that does one thing with a value. -/
theorem value (value : Expr) {i : Instr} (s : Supply) (hlabels : st.labelCost = 0)
    (hcode : st.codeCost = 1) :
    Costs [value] [st] s { s with temps := (value.lower s.temps).temps }
      ((value.lower s.temps).code ++ [i]) := by
  refine ⟨(takesTemps_lower value s.temps).count, ?_, ?_⟩
  · rw [labelCosts_cons, hlabels]
    rfl
  · rw [List.length_append, length_lower, codeCosts_cons, hcode]
    rfl

/-- A statement that takes its labels, tests a condition and goes on with its blocks. -/
theorem around {cond : Expr} (h : Costs es ss (s.afterTest cond st.labelCost) s' body)
    (hcode : code.length = (cond.lower s.temps).code.length + body.length + st.codeCost) :
    Costs (cond :: es) (st :: ss) s s' code := by
  obtain ⟨htemps, hlabels, hlength⟩ := h
  have htest := (takesTemps_lower cond s.temps).count
  refine ⟨?_, ?_, ?_⟩
  · rw [htemps, tempCountOf, ← Nat.add_assoc, ← htest]
    rfl
  · rw [hlabels, labelCosts_cons, ← Nat.add_assoc]
    rfl
  · rw [hcode, length_lower, hlength, tempCountOf, codeCosts_cons]
    omega

end Costs

mutual

/-- **What the code of a statement costs**, from what its expressions and its blocks cost. -/
theorem costs_lower_stmt : ∀ (st : Stmt) {loop : Option Loop} {s s' : Supply} {code : List Instr},
    st.lower loop s = .ok code s' → Costs st.exprs (st :: st.nested) s s' code
  | .assign target value _, loop, s, s', code, h => by
      rw [lower_assign] at h
      cases h
      exact .value value s rfl rfl
  | .call callee args span, loop, s, s', code, h => by
      rw [lower_call] at h
      cases h
      exact ⟨(takesTemps_lower _ s.temps).count, rfl, length_lower _ s.temps⟩
  | .return none _, loop, s, s', code, h => by
      rw [lower_return_none] at h
      cases h
      exact ⟨rfl, rfl, rfl⟩
  | .return (some value) _, loop, s, s', code, h => by
      rw [lower_return_some] at h
      cases h
      exact .value value s rfl rfl
  | .ifThen cond yes _, loop, s, s', code, h => by
      obtain ⟨body, hb, rfl⟩ := lower_ifThen_eq_ok h
      exact .around (costs_lower_block yes hb) (Layout.length_ifThen _ _ _)
  | .ifElse cond yes no _, loop, s, s', code, h => by
      obtain ⟨a, s₁, b, ha, hb, rfl⟩ := lower_ifElse_eq_ok h
      have hblocks := (costs_lower_block yes ha).append (costs_lower_block no hb)
      apply hblocks.around
      rw [Layout.length_ifElse, List.length_append, ← Nat.add_assoc]
      rfl
  | .while cond body _, loop, s, s', code, h => by
      obtain ⟨a, ha, rfl⟩ := lower_while_eq_ok h
      exact .around (costs_lower_block body ha) (Layout.length_loop _ _ _)
  | .break _, none, s, s', code, h => by cases h
  | .break _, some l, s, s', code, h => by cases h; exact ⟨rfl, rfl, rfl⟩
  | .continue _, none, s, s', code, h => by cases h
  | .continue _, some l, s, s', code, h => by cases h; exact ⟨rfl, rfl, rfl⟩
  | .write args _, loop, s, s', code, h => by
      rw [lower_write] at h
      cases h
      exact ⟨(takesTemps_lowerPrints args s.temps).count, rfl, length_lowerPrints args s.temps⟩

/-- A block costs what its expressions and its statements cost. -/
theorem costs_lower_block : ∀ (b : Block) {loop : Option Loop} {s s' : Supply} {code : List Instr},
    b.lower loop s = .ok code s' → Costs b.exprs b.stmts s s' code
  | ⟨statements, _⟩, _, _, _, _, h => costs_lowerAll statements h

theorem costs_lowerAll : ∀ (ss : List Stmt) {loop : Option Loop} {s s' : Supply} {code : List Instr},
    lowerAll loop ss s = .ok code s' → Costs (exprsOf ss) (stmtsOf ss) s s' code
  | [], _, s, _, _, h => by cases h; exact .nothing s
  | first :: more, loop, s, s', code, h => by
      obtain ⟨a, s₁, b, ha, hb, rfl⟩ := lowerAll_cons_eq_ok h
      exact (costs_lower_stmt first ha).append (costs_lowerAll more hb)

end

/-! ## Programs -/

/-- A declaration of global variables. -/
def Decl.isVars : Decl → Bool
  | .vars _ => true
  | .routine _ => false

/-- Code of declarations: one instruction for each line of variables, and two around each body. -/
theorem costs_lowerDecls {ds : List Decl} {s s' : Supply} {code : List Instr}
    (h : lowerDecls ds s = .ok code s') :
    ∃ inner, Costs (((ds.filterMap Decl.routine?).map Routine.body).flatMap Block.exprs)
        (((ds.filterMap Decl.routine?).map Routine.body).flatMap Block.stmts) s s' inner ∧
      code.length = inner.length + ds.countP Decl.isVars + 2 * (ds.filterMap Decl.routine?).length := by
  induction ds generalizing s code with
  | nil =>
      cases h
      exact ⟨[], .nothing _, rfl⟩
  | cons d ds ih =>
      cases d with
      | vars decl =>
          obtain ⟨b, hb, rfl⟩ := lowerDecls_vars_eq_ok h
          obtain ⟨inner, hcosts, hlength⟩ := ih hb
          refine ⟨inner, hcosts, ?_⟩
          rw [List.length_cons, hlength, List.countP_cons_of_pos rfl]
          show _ = inner.length + _ + 2 * (ds.filterMap Decl.routine?).length
          omega
      | routine r =>
          obtain ⟨body, s₁, b, hbody, hb, rfl⟩ := lowerDecls_routine_eq_ok h
          obtain ⟨inner, hcosts, hlength⟩ := ih hb
          refine ⟨body ++ inner, (costs_lower_block r.body hbody).append hcosts, ?_⟩
          have hsection : (r.sectionOf body).code.length = body.length + 2 := by
            simp [CodeSection.code, Routine.sectionOf]
          rw [List.length_append, List.length_append, hsection, hlength,
            List.countP_cons_of_neg (by simp [Decl.isVars])]
          show _ = _ + 2 * ((ds.filterMap Decl.routine?).length + 1)
          omega

/-- **What the code of a program costs**: what its bodies cost, one instruction for each line of variables,
    and two around each body. -/
theorem costs_lower_program {p : Program} {s s' : Supply} {code : List Instr}
    (h : p.lower s = .ok code s') :
    ∃ inner, Costs (p.bodies.flatMap Block.exprs) p.stmts s s' inner ∧
      code.length = inner.length + p.declarations.countP Decl.isVars + 2 * (p.routines.length + 1) := by
  obtain ⟨a, s₁, body, ha, hbody, rfl⟩ := lower_program_eq_ok h
  obtain ⟨inner, hcosts, hlength⟩ := costs_lowerDecls ha
  have hmain := costs_lower_block p.main hbody
  refine ⟨inner ++ body, ?_, ?_⟩
  · have hexprs : p.bodies.flatMap Block.exprs =
        (p.routines.map Routine.body).flatMap Block.exprs ++ p.main.exprs := by
      rw [Program.bodies, List.flatMap_append, List.flatMap_singleton]
    have hstmts : p.stmts = (p.routines.map Routine.body).flatMap Block.stmts ++ p.main.stmts := by
      rw [Program.stmts, Program.bodies, List.flatMap_append, List.flatMap_singleton]
    rw [hexprs, hstmts]
    exact hcosts.append hmain
  · have hsection : (CodeSection.main body).code.length = body.length + 2 := by
      simp [CodeSection.code, CodeSection.main]
    rw [List.length_append, List.length_append, hsection, hlength, Program.routines]
    omega

/-- How many statements of a kind a program has, at any depth. -/
def Program.count (p : Program) (form : Stmt.Form) : Nat :=
  p.stmts.countP (fun st => st.form = form)

/-- How many values the `writeln` statements of a program print, each run once. -/
def Program.printCount (p : Program) : Nat :=
  (p.stmts.map Stmt.printed).sum

section Forms

variable (ss : List Stmt)

/-- The labels of statements, kind by kind. -/
theorem labelCosts_eq :
    labelCosts ss = 2 * ss.countP (fun st => st.form = .ifThen) +
      3 * ss.countP (fun st => st.form = .ifElse) + 2 * ss.countP (fun st => st.form = .while) := by
  induction ss with
  | nil => rfl
  | cons st ss ih =>
      rw [labelCosts_cons, ih]
      cases st <;> simp [Stmt.labelCost, Stmt.form] <;> omega

/-- The instructions of statements, kind by kind. -/
theorem codeCosts_eq :
    codeCosts ss = ss.countP (fun st => st.form = .assign) + ss.countP (fun st => st.form = .return) +
      (ss.map Stmt.printed).sum + ss.countP (fun st => st.form = .break) +
      ss.countP (fun st => st.form = .continue) + 2 * ss.countP (fun st => st.form = .ifThen) +
      6 * ss.countP (fun st => st.form = .ifElse) + 4 * ss.countP (fun st => st.form = .while) := by
  induction ss with
  | nil => rfl
  | cons st ss ih =>
      rw [codeCosts_cons, ih]
      cases st <;> simp [Stmt.codeCost, Stmt.form, Stmt.printed] <;> omega

end Forms

/-- **The costs of a program in closed form**: the names handed out when its code is made afresh, and the
    length of the code. -/
structure Program.Accounted (p : Program) (code : List Instr) (s : Supply) : Prop where
  temps : s.temps = p.exprs.countP Expr.isComputed
  labels : s.labels = 2 * p.count .ifThen + 3 * p.count .ifElse + 2 * p.count .while
  length : code.length = p.declarations.countP Decl.isVars + 2 * (p.routines.length + 1) +
    p.exprs.countP Expr.isComputed + p.count .assign + p.count .return + p.printCount +
    p.count .break + p.count .continue + 2 * p.count .ifThen + 6 * p.count .ifElse + 4 * p.count .while

/-- Code made from fresh counts is accounted for. -/
theorem accounted_of_codeWith {p : Program} {code : List Instr} {s : Supply}
    (h : p.codeWith {} = (.ok code, s)) : p.Accounted code s := by
  obtain ⟨inner, ⟨htemps, hlabels, hinner⟩, hlength⟩ := costs_lower_program (codeWith_eq_ok h)
  have hcomputed : tempCountOf (p.bodies.flatMap Block.exprs) = p.exprs.countP Expr.isComputed :=
    tempCountOf_eq_countP _
  rw [hcomputed] at htemps hinner
  rw [labelCosts_eq] at hlabels
  rw [codeCosts_eq] at hinner
  refine ⟨?_, ?_, ?_⟩
  · rw [htemps]
    exact Nat.zero_add _
  · rw [hlabels]
    exact Nat.zero_add _
  · rw [hlength, hinner]
    unfold Program.count Program.printCount
    omega

end TinyPascal
