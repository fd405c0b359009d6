import TinyPascal.Code.Lower
import TinyPascal.Proofs.Code.Names
import TinyPascal.Proofs.Outcome
import TinyPascal.Proofs.Tree.Occurrences

/-!
# `Proofs.Code.Lowering` — what lowering gives, construct by construct

Proofs about code do not unfold `Stmt.lower`. They use the equations of this module: one for each
construct, with the lists of instructions in the shape in which proofs walk over them (`Layout`).

## Contents
- **Statements.** `lower_ifThen`, `lower_ifElse`, `lower_while` and the others; `lowerAll_cons` for
  sequences.
- **Temporaries.** A bare name needs no code (`lower_of_name?`); any other expression leaves its value in
  a temporary of its own (`exists_temp_of_lower`).
- **Labels.** `FreshLabels`: the labels of lowered code are new, each number is used once.
-/

namespace TinyPascal

/-! ## Layouts of the constructs with blocks -/

namespace Layout

/-- `if` without `else`, from the code of its condition and of its block. -/
def ifThen (c : Lowered Place) (stop : Label) (body : List Instr) : List Instr :=
  c.code ++ .ifNotGoto c.result stop :: (body ++ [.label stop])

/-- `if` with `else`. -/
def ifElse (c : Lowered Place) (first second stop : Label) (yes no : List Instr) : List Instr :=
  c.code ++ .ifGoto c.result first :: .goto second :: .label first ::
    (yes ++ .goto stop :: .label second :: (no ++ [.label stop]))

/-- `while`. -/
def loop (c : Lowered Place) (l : Loop) (body : List Instr) : List Instr :=
  .label l.start :: (c.code ++ .ifNotGoto c.result l.stop ::
    (body ++ [.goto l.start, .label l.stop]))

/-- An `if` without `else` adds a jump and a label to its parts. -/
theorem length_ifThen (c : Lowered Place) (stop : Label) (body : List Instr) :
    (ifThen c stop body).length = c.code.length + body.length + 2 := by
  simp only [ifThen, List.length_append, List.length_cons, List.length_nil]
  omega

/-- An `if` with `else` adds three jumps and three labels to its parts. -/
theorem length_ifElse (c : Lowered Place) (first second stop : Label) (yes no : List Instr) :
    (ifElse c first second stop yes no).length
      = c.code.length + yes.length + no.length + 6 := by
  simp only [ifElse, List.length_append, List.length_cons, List.length_nil]
  omega

/-- A loop adds two jumps and two labels to its parts. -/
theorem length_loop (c : Lowered Place) (l : Loop) (body : List Instr) :
    (loop c l body).length = c.code.length + body.length + 4 := by
  simp only [loop, List.length_append, List.length_cons, List.length_nil]
  omega

theorem ifThen_eq (c : Lowered Place) (stop : Label) (body : List Instr) :
    ifThen c stop body = c.code ++ [.ifNotGoto c.result stop] ++ body ++ [.label stop] := by
  simp [ifThen]

theorem ifElse_eq (c : Lowered Place) (first second stop : Label) (yes no : List Instr) :
    ifElse c first second stop yes no =
      c.code ++ [.ifGoto c.result first, .goto second, .label first] ++ yes
        ++ [.goto stop, .label second] ++ no ++ [.label stop] := by
  simp [ifElse]

theorem loop_eq (c : Lowered Place) (l : Loop) (body : List Instr) :
    loop c l body = [.label l.start] ++ c.code ++ [.ifNotGoto c.result l.stop] ++ body
      ++ [.goto l.start, .label l.stop] := by
  simp [loop]

end Layout

/-- The labels of a loop that is lowered after `n` labels. -/
def Loop.fresh (n : Nat) : Loop :=
  ⟨labelName "L_while_start_" (n + 1), labelName "L_while_end_" (n + 2)⟩

/-! ## Statements -/

section Statements

variable {loop : Option Loop} {s s' : Supply} {code : List Instr} {span : Span}

/-- The supply after the code of a condition and `n` labels. -/
def Supply.afterTest (s : Supply) (cond : Expr) (n : Nat) : Supply :=
  ⟨(cond.lower s.temps).temps, s.labels + n⟩

/-- The value is computed, and then stored. -/
theorem lower_assign (target : Ident) (value : Expr) :
    (Stmt.assign target value span).lower loop s =
      .ok ((value.lower s.temps).code ++ [.assign target.name (value.lower s.temps).result])
        { s with temps := (value.lower s.temps).temps } := rfl

/-- A call statement has the code of the call expression. -/
theorem lower_call (callee : Ident) (args : List Expr) :
    (Stmt.call callee args span).lower loop s =
      .ok ((Expr.call callee args span).lower s.temps).code
        { s with temps := ((Expr.call callee args span).lower s.temps).temps } := by
  simp only [Expr.lower]
  rfl

theorem lower_return_none : (Stmt.return none span).lower loop s = .ok [.ret none] s := rfl

/-- The value is computed, and then given back. -/
theorem lower_return_some (value : Expr) :
    (Stmt.return (some value) span).lower loop s =
      .ok ((value.lower s.temps).code ++ [.ret (some (value.lower s.temps).result)])
        { s with temps := (value.lower s.temps).temps } := rfl

theorem lower_write (args : List Expr) :
    (Stmt.write args span).lower loop s =
      .ok (lowerPrints args s.temps).code { s with temps := (lowerPrints args s.temps).temps } := rfl

theorem lower_break (l : Loop) : (Stmt.break span).lower (some l) s = .ok [.goto l.stop] s := rfl

theorem lower_continue (l : Loop) :
    (Stmt.continue span).lower (some l) s = .ok [.goto l.start] s := rfl

theorem lower_break_stray : (Stmt.break span).lower none s = .error ⟨.break, span⟩ s := rfl

theorem lower_continue_stray :
    (Stmt.continue span).lower none s = .error ⟨.continue, span⟩ s := rfl

/-- An `if` without `else` takes two labels, of which the first one is not set, and then lowers its
    block. -/
theorem lower_ifThen (cond : Expr) (yes : Block) :
    (Stmt.ifThen cond yes span).lower loop s =
      (yes.lower loop >>= fun body => pure
        (Layout.ifThen (cond.lower s.temps) (labelName "L_end_" (s.labels + 2)) body))
      (s.afterTest cond 2) := by
  simp only [Layout.ifThen_eq]
  rfl

/-- An `if` with `else` takes three labels and then lowers its blocks, one after the other. -/
theorem lower_ifElse (cond : Expr) (yes no : Block) :
    (Stmt.ifElse cond yes no span).lower loop s =
      (yes.lower loop >>= fun a => no.lower loop >>= fun b => pure
        (Layout.ifElse (cond.lower s.temps) (labelName "L_then_" (s.labels + 1))
          (labelName "L_else_" (s.labels + 2)) (labelName "L_end_" (s.labels + 3)) a b))
      (s.afterTest cond 3) := by
  simp only [Layout.ifElse_eq]
  rfl

/-- A loop takes its two labels and lowers its body inside them. -/
theorem lower_while (cond : Expr) (body : Block) :
    (Stmt.while cond body span).lower loop s =
      (body.lower (some (.fresh s.labels)) >>= fun a => pure
        (Layout.loop (cond.lower s.temps) (.fresh s.labels) a))
      (s.afterTest cond 2) := by
  simp only [Layout.loop_eq]
  rfl

theorem lower_block (b : Block) : b.lower loop s = lowerAll loop b.statements s := by
  cases b
  rfl

theorem lowerAll_nil : lowerAll loop [] s = .ok [] s := rfl

/-- The code of a statement stands in front of the code of those behind it. -/
theorem lowerAll_cons (first : Stmt) (more : List Stmt) :
    lowerAll loop (first :: more) s =
      (first.lower loop >>= fun a => lowerAll loop more >>= fun b => pure (a ++ b)) s := rfl

/-! ## Constructs that have code

A construct with blocks has code exactly if its blocks have; the proofs about lowered code start from
the code of the blocks. -/

variable {cond : Expr} {yes no body : Block}

/-- An `if` without `else` has code if its block has. -/
theorem lower_ifThen_eq_ok (h : (Stmt.ifThen cond yes span).lower loop s = .ok code s') :
    ∃ a, yes.lower loop (s.afterTest cond 2) = .ok a s' ∧
      code = Layout.ifThen (cond.lower s.temps) (labelName "L_end_" (s.labels + 2)) a := by
  rw [lower_ifThen] at h
  exact EStateM.bind_pure_eq_ok.mp h

/-- An `if` with `else` has code if both blocks have; the second one goes on with the names of the first.
    -/
theorem lower_ifElse_eq_ok (h : (Stmt.ifElse cond yes no span).lower loop s = .ok code s') :
    ∃ a s₁ b, yes.lower loop (s.afterTest cond 3) = .ok a s₁ ∧ no.lower loop s₁ = .ok b s' ∧
      code = Layout.ifElse (cond.lower s.temps) (labelName "L_then_" (s.labels + 1))
        (labelName "L_else_" (s.labels + 2)) (labelName "L_end_" (s.labels + 3)) a b := by
  rw [lower_ifElse] at h
  obtain ⟨a, s₁, ha, hrest⟩ := EStateM.bind_eq_ok.mp h
  obtain ⟨b, hb, hcode⟩ := EStateM.bind_pure_eq_ok.mp hrest
  exact ⟨a, s₁, b, ha, hb, hcode⟩

/-- A loop has code if its body has, between the labels of the loop. -/
theorem lower_while_eq_ok (h : (Stmt.while cond body span).lower loop s = .ok code s') :
    ∃ a, body.lower (some (.fresh s.labels)) (s.afterTest cond 2) = .ok a s' ∧
      code = Layout.loop (cond.lower s.temps) (.fresh s.labels) a := by
  rw [lower_while] at h
  exact EStateM.bind_pure_eq_ok.mp h

/-- Statements in a row have code if each of them has. -/
theorem lowerAll_cons_eq_ok {first : Stmt} {more : List Stmt}
    (h : lowerAll loop (first :: more) s = .ok code s') :
    ∃ a s₁ b, first.lower loop s = .ok a s₁ ∧ lowerAll loop more s₁ = .ok b s' ∧ code = a ++ b := by
  rw [lowerAll_cons] at h
  obtain ⟨a, s₁, ha, hrest⟩ := EStateM.bind_eq_ok.mp h
  obtain ⟨b, hb, hcode⟩ := EStateM.bind_pure_eq_ok.mp hrest
  exact ⟨a, s₁, b, ha, hb, hcode⟩

end Statements

/-! ## Temporaries -/

mutual

/-- An expression gives no temporaries back. -/
theorem le_temps_lower : ∀ (e : Expr) (k : Nat), k ≤ (e.lower k).temps
  | .int _ _, k | .bool _ _, k => Nat.le_succ k
  | .var _ _, k => Nat.le_refl k
  | .paren inner _, k => le_temps_lower inner k
  | .not operand _, k => Nat.le_succ_of_le (le_temps_lower operand k)
  | .binary _ left right _, k =>
      Nat.le_succ_of_le (Nat.le_trans (le_temps_lower left k) (le_temps_lower right _))
  | .call _ args _, k => Nat.le_succ_of_le (le_temps_lowerArgs args k)

theorem le_temps_lowerArgs : ∀ (es : List Expr) (k : Nat), k ≤ (lowerArgs es k).temps
  | [], k => Nat.le_refl k
  | e :: es, k => Nat.le_trans (le_temps_lower e k) (le_temps_lowerArgs es _)

end

/-- A bare name is its own place and needs no code. -/
theorem lower_of_name? {e : Expr} {x : String} (h : e.name? = some x) (k : Nat) :
    e.lower k = ⟨[], x, k⟩ := by
  fun_induction Expr.name? e with
  | case1 => cases h; rfl
  | case2 inner _ ih => exact ih h
  | case3 => cases h

/-- The value of any other expression is in one of the temporaries that its code hands out. -/
theorem exists_temp_of_lower {e : Expr} (h : e.name? = none) (k : Nat) :
    ∃ j, k < j ∧ j ≤ (e.lower k).temps ∧ (e.lower k).result = tempName j := by
  fun_induction Expr.name? e with
  | case1 => cases h
  | case2 inner _ ih => exact ih h
  | case3 e hvar hparen =>
      -- any other expression ends with an instruction that sets a new temporary
      cases e with
      | int n _ => exact ⟨k + 1, Nat.lt_succ_self k, Nat.le_refl _, rfl⟩
      | bool b _ => exact ⟨k + 1, Nat.lt_succ_self k, Nat.le_refl _, rfl⟩
      | var x _ => exact absurd rfl (hvar x _)
      | paren inner _ => exact absurd rfl (hparen inner _)
      | not operand _ =>
          exact ⟨_, Nat.lt_succ_of_le (le_temps_lower operand k), Nat.le_refl _, rfl⟩
      | binary op left right _ =>
          have hle := Nat.le_trans (le_temps_lower left k) (le_temps_lower right _)
          exact ⟨_, Nat.lt_succ_of_le hle, Nat.le_refl _, rfl⟩
      | call callee args _ =>
          exact ⟨_, Nat.lt_succ_of_le (le_temps_lowerArgs args k), Nat.le_refl _, rfl⟩

/-! ## Labels -/

/-- The numbers of the labels that code sets, in order. -/
def labelNumbers (code : List Instr) : List Nat :=
  code.filterMap (fun i => i.defines?.map labelNumber)

@[simp] theorem labelNumbers_nil : labelNumbers [] = [] := rfl

@[simp] theorem labelNumbers_append (a b : List Instr) :
    labelNumbers (a ++ b) = labelNumbers a ++ labelNumbers b :=
  List.filterMap_append

/-- The labels of code are those of its instructions, in order. -/
theorem labelNumbers_cons (i : Instr) (rest : List Instr) :
    labelNumbers (i :: rest) = (i.defines?.map labelNumber).toList ++ labelNumbers rest := by
  cases h : i.defines? <;> simp [labelNumbers, h]

mutual

/-- Expressions set no labels. -/
theorem labelNumbers_lower : ∀ (e : Expr) (k : Nat), labelNumbers (e.lower k).code = []
  | .int _ _, _ | .bool _ _, _ | .var _ _, _ => rfl
  | .paren inner _, k => labelNumbers_lower inner k
  | .not operand _, k => by
      simp only [Expr.lower, labelNumbers_append, labelNumbers_lower operand k]
      rfl
  | .binary _ left right _, k => by
      simp only [Expr.lower, labelNumbers_append, labelNumbers_lower left k,
        labelNumbers_lower right _]
      rfl
  | .call _ args _, k => by
      simp only [Expr.lower, labelNumbers_append, labelNumbers_lowerArgs args k]
      rfl

theorem labelNumbers_lowerArgs : ∀ (es : List Expr) (k : Nat),
    labelNumbers (lowerArgs es k).code = []
  | [], _ => rfl
  | e :: es, k => by
      simp only [lowerArgs, labelNumbers_append, labelNumbers_lower e k,
        labelNumbers_lowerArgs es _, List.append_nil]

end

theorem labelNumbers_lowerPrints (es : List Expr) (k : Nat) :
    labelNumbers (lowerPrints es k).code = [] := by
  induction es generalizing k with
  | nil => rfl
  | cons e es ih =>
      simp only [lowerPrints, labelNumbers_append, labelNumbers_lower, ih]
      rfl

/-- **New labels.** Code that was lowered while the count of labels went from `lo` to `hi` sets labels
    with numbers in between, each at most once. -/
structure FreshLabels (lo hi : Nat) (code : List Instr) : Prop where
  le : lo ≤ hi
  nodup : (labelNumbers code).Nodup
  range : ∀ n ∈ labelNumbers code, lo < n ∧ n ≤ hi

namespace FreshLabels

variable {lo mid hi : Nat} {a b : List Instr}

/-- Code without labels. -/
theorem of_nil (h : labelNumbers a = []) : FreshLabels lo lo a :=
  ⟨Nat.le_refl lo, by rw [h]; exact .nil, by rw [h]; simp⟩

/-- Two pieces of code that take their labels one after the other. -/
theorem append (ha : FreshLabels lo mid a) (hb : FreshLabels mid hi b) :
    FreshLabels lo hi (a ++ b) := by
  obtain ⟨hle, hnd, hr⟩ := ha
  obtain ⟨hle', hnd', hr'⟩ := hb
  refine ⟨Nat.le_trans hle hle', ?_, ?_⟩
  · rw [labelNumbers_append]
    -- the numbers of `a` end where those of `b` begin
    refine List.nodup_append.mpr ⟨hnd, hnd', fun m hm n hn => ?_⟩
    have := hr m hm
    have := hr' n hn
    omega
  · intro n hn
    rw [labelNumbers_append, List.mem_append] at hn
    rcases hn with hn | hn
    · have := hr n hn; omega
    · have := hr' n hn; omega

/-- The label of an `if` without `else` stands behind that of its block, with a lower number. -/
theorem ifThen {body : List Instr} (cond : Expr) (k : Nat) (h : FreshLabels (lo + 2) hi body) :
    FreshLabels lo hi (Layout.ifThen (cond.lower k) (labelName "L_end_" (lo + 2)) body) := by
  obtain ⟨hle, hnd, hr⟩ := h
  -- the number `lo + 1` is taken as well, but no label is set with it
  have hnum : labelNumbers (Layout.ifThen (cond.lower k) (labelName "L_end_" (lo + 2)) body)
      = labelNumbers body ++ [lo + 2] := by
    simp [Layout.ifThen, labelNumbers_lower, labelNumbers_cons, Instr.defines?,
      labelNumber_labelName (show IsStem "L_end_" by decide)]
  refine ⟨by omega, ?_, ?_⟩
  · rw [hnum]
    refine List.nodup_append.mpr ⟨hnd, by simp, fun m hm n hn => ?_⟩
    have := hr m hm
    simp only [List.mem_singleton] at hn
    omega
  · intro n hn
    rw [hnum, List.mem_append, List.mem_singleton] at hn
    rcases hn with hn | rfl
    · have := hr n hn; omega
    · omega

/-- The labels of an `if` with `else` have numbers below those of its blocks. -/
theorem ifElse {yes no : List Instr} (cond : Expr) (k : Nat) (ha : FreshLabels (lo + 3) mid yes)
    (hb : FreshLabels mid hi no) :
    FreshLabels lo hi (Layout.ifElse (cond.lower k) (labelName "L_then_" (lo + 1))
      (labelName "L_else_" (lo + 2)) (labelName "L_end_" (lo + 3)) yes no) := by
  have hnum : labelNumbers (Layout.ifElse (cond.lower k) (labelName "L_then_" (lo + 1))
      (labelName "L_else_" (lo + 2)) (labelName "L_end_" (lo + 3)) yes no)
      = (lo + 1) :: (labelNumbers yes ++ (lo + 2) :: (labelNumbers no ++ [lo + 3])) := by
    simp [Layout.ifElse, labelNumbers_lower, labelNumbers_cons, Instr.defines?,
      labelNumber_labelName (show IsStem "L_then_" by decide),
      labelNumber_labelName (show IsStem "L_else_" by decide),
      labelNumber_labelName (show IsStem "L_end_" by decide)]
  obtain ⟨hle, hnda, hra⟩ := ha
  obtain ⟨hle', hndb, hrb⟩ := hb
  -- the second block takes its numbers behind those of the first
  have hne : ∀ m ∈ labelNumbers yes, ∀ n ∈ labelNumbers no, m < n := by
    intro m hm n hn
    have := hra m hm
    have := hrb n hn
    omega
  refine ⟨by omega, ?_, ?_⟩
  · rw [hnum]
    refine List.nodup_cons.mpr ⟨?_, List.nodup_append.mpr ⟨hnda, List.nodup_cons.mpr ⟨?_,
      List.nodup_append.mpr ⟨hndb, by simp, ?_⟩⟩, ?_⟩⟩
    all_goals grind
  · intro n hn
    rw [hnum] at hn
    grind

/-- The labels of a loop have numbers below those of its body. -/
theorem loop {body : List Instr} (cond : Expr) (k : Nat) (h : FreshLabels (lo + 2) hi body) :
    FreshLabels lo hi (Layout.loop (cond.lower k) (.fresh lo) body) := by
  obtain ⟨hle, hnd, hr⟩ := h
  have hnum : labelNumbers (Layout.loop (cond.lower k) (.fresh lo) body)
      = (lo + 1) :: (labelNumbers body ++ [lo + 2]) := by
    simp [Layout.loop, Loop.fresh, labelNumbers_lower, labelNumbers_cons, Instr.defines?,
      labelNumber_labelName (show IsStem "L_while_start_" by decide),
      labelNumber_labelName (show IsStem "L_while_end_" by decide)]
  refine ⟨by omega, ?_, ?_⟩
  · rw [hnum]
    grind
  · intro n hn
    rw [hnum] at hn
    grind

end FreshLabels

mutual

/-- **Lowered code sets new labels only.** The induction is over the statement: each construct puts its
    own numbers in front of those that its blocks take. -/
theorem freshLabels_lower : ∀ (st : Stmt) {loop : Option Loop} {s s' : Supply} {code : List Instr},
    st.lower loop s = .ok code s' → FreshLabels s.labels s'.labels code
  | .assign target value _, loop, s, s', code, h => by
      rw [lower_assign] at h
      cases h
      exact .of_nil (by simp [labelNumbers_lower, labelNumbers_cons, Instr.defines?])
  | .call callee args _, loop, s, s', code, h => by
      rw [lower_call] at h
      cases h
      exact .of_nil (labelNumbers_lower _ _)
  | .return none _, loop, s, s', code, h => by
      rw [lower_return_none] at h
      cases h
      exact .of_nil rfl
  | .return (some value) _, loop, s, s', code, h => by
      rw [lower_return_some] at h
      cases h
      exact .of_nil (by simp [labelNumbers_lower, labelNumbers_cons, Instr.defines?])
  | .ifThen cond yes _, loop, s, s', code, h => by
      obtain ⟨body, hb, rfl⟩ := lower_ifThen_eq_ok h
      exact (freshLabels_lower_block yes hb).ifThen cond s.temps
  | .ifElse cond yes no _, loop, s, s', code, h => by
      obtain ⟨a, s₁, b, ha, hb, rfl⟩ := lower_ifElse_eq_ok h
      exact (freshLabels_lower_block yes ha).ifElse cond s.temps (freshLabels_lower_block no hb)
  | .while cond body _, loop, s, s', code, h => by
      obtain ⟨a, ha, rfl⟩ := lower_while_eq_ok h
      exact (freshLabels_lower_block body ha).loop cond s.temps
  | .break _, none, s, s', code, h => by cases h
  | .break _, some l, s, s', code, h => by cases h; exact .of_nil rfl
  | .continue _, none, s, s', code, h => by cases h
  | .continue _, some l, s, s', code, h => by cases h; exact .of_nil rfl
  | .write args _, loop, s, s', code, h => by
      rw [lower_write] at h
      cases h
      exact .of_nil (labelNumbers_lowerPrints _ _)

/-- The labels of a block. -/
theorem freshLabels_lower_block : ∀ (b : Block) {loop : Option Loop} {s s' : Supply}
    {code : List Instr}, b.lower loop s = .ok code s' → FreshLabels s.labels s'.labels code
  | ⟨statements, _⟩, _, _, _, _, h => freshLabels_lowerAll statements h

/-- The labels of statements in a row: those of the first one are below those of the others. -/
theorem freshLabels_lowerAll : ∀ (ss : List Stmt) {loop : Option Loop} {s s' : Supply}
    {code : List Instr}, lowerAll loop ss s = .ok code s' → FreshLabels s.labels s'.labels code
  | [], loop, s, s', code, h => by cases h; exact .of_nil rfl
  | first :: more, loop, s, s', code, h => by
      obtain ⟨a, s₁, b, ha, hb, rfl⟩ := lowerAll_cons_eq_ok h
      exact (freshLabels_lower first ha).append (freshLabels_lowerAll more hb)

end

end TinyPascal
