import TinyPascal.Proofs.Semantics.Activations

/-!
# `Proofs.Semantics.Operands` — what operands are when they are read

An operator reads its two operands, and a call its arguments, when all of them have been computed. An
operand with code of its own waits in a temporary, which nothing else sets. A bare name has no code and
is its own place: it is read where the operator or the call stands, behind the code of the operands to
its right. **A call among those may change it, if it is a global.**

## Contents
- **Expressions at any depth.** `stands_code`: the code of a program holds the code of all its expressions.
- **Operands.** `Expr.operands?`; `lower_operands`: the code of the operands, and then the instruction that
  reads them.
- **The main frame.** `mainFrame?` follows it by computation.
- **Capture.** `operand_read_iff`: what becomes of an operand on the way to its reader.
  `operand_captured_iff`: when operands are captured. `operand_not_captured`: they are not always.
-/

namespace TinyPascal

/-! ## Code of expressions at any depth -/

/-- The code of the expression, lowered after some number of temporaries, is part of `code`. -/
def Stands (e : Expr) (code : List Instr) : Prop :=
  ∃ k, (e.lower k).code <:+: code

namespace Stands

variable {e : Expr} {a b : List Instr}

theorem mono (h : Stands e a) (hab : a <:+: b) : Stands e b := by
  obtain ⟨k, hk⟩ := h
  exact ⟨k, hk.trans hab⟩

theorem left (h : Stands e a) : Stands e (a ++ b) :=
  h.mono (List.prefix_append a b).isInfix

theorem right (h : Stands e b) : Stands e (a ++ b) :=
  h.mono (List.suffix_append a b).isInfix

end Stands

theorem stands_self (e : Expr) (k : Nat) : Stands e (e.lower k).code :=
  ⟨k, List.infix_refl _⟩

mutual

/-- Every expression inside an expression stands in its code. -/
theorem stands_nested : ∀ (e : Expr) (k : Nat), ∀ e' ∈ e.nested, Stands e' (e.lower k).code
  | .int _ _, _ | .bool _ _, _ | .var _ _, _ => fun e' h => absurd h List.not_mem_nil
  | .paren inner _, k =>
      List.forall_mem_cons.mpr ⟨stands_self inner k, stands_nested inner k⟩
  | .not operand _, k =>
      List.forall_mem_cons.mpr ⟨(stands_self operand k).left,
        fun e' h => (stands_nested operand k e' h).left⟩
  | .binary _ left right _, k => by
      simp only [Expr.nested, Expr.lower, List.forall_mem_append, List.forall_mem_cons]
      exact ⟨⟨(stands_self left k).left.left, fun e' h => (stands_nested left k e' h).left.left⟩,
        (stands_self right _).right.left, fun e' h => (stands_nested right _ e' h).right.left⟩
  | .call _ args _, k => fun e' h => (stands_nestedOf args k e' h).left

theorem stands_nestedOf : ∀ (es : List Expr) (k : Nat), ∀ e' ∈ nestedOf es,
    Stands e' (lowerArgs es k).code
  | [], _ => fun e' h => absurd h List.not_mem_nil
  | e :: es, k => by
      simp only [nestedOf, lowerArgs, List.forall_mem_append, List.forall_mem_cons]
      exact ⟨⟨(stands_self e k).left, fun e' h => (stands_nested e k e' h).left⟩,
        fun e' h => (stands_nestedOf es _ e' h).right⟩

end

theorem stands_lowerPrints (es : List Expr) (k : Nat) :
    ∀ e ∈ es, Stands e (lowerPrints es k).code := by
  induction es generalizing k with
  | nil => exact fun e h => absurd h List.not_mem_nil
  | cons e es ih =>
      exact List.forall_mem_cons.mpr ⟨(stands_self e k).left.left, fun e' h => (ih _ e' h).right⟩

mutual

/-- Every expression of a statement stands in its code. -/
theorem stands_lower_stmt : ∀ (st : Stmt) {loop : Option Loop} {s s' : Supply} {code : List Instr},
    st.lower loop s = .ok code s' → ∀ e ∈ st.exprs, Stands e code
  | .assign target value _, loop, s, s', code, h => by
      rw [lower_assign] at h
      cases h
      exact List.forall_mem_singleton.mpr (stands_self value _).left
  | .call callee args span, loop, s, s', code, h => by
      rw [lower_call] at h
      cases h
      exact List.forall_mem_singleton.mpr (stands_self (.call callee args span) _)
  | .return none _, loop, s, s', code, h => fun e he => absurd he List.not_mem_nil
  | .return (some value) _, loop, s, s', code, h => by
      rw [lower_return_some] at h
      cases h
      exact List.forall_mem_singleton.mpr (stands_self value _).left
  | .ifThen cond yes _, loop, s, s', code, h => by
      obtain ⟨body, hb, rfl⟩ := lower_ifThen_eq_ok h
      rw [Layout.ifThen_eq]
      exact List.forall_mem_cons.mpr ⟨(stands_self cond _).left.left.left,
        fun e he => (stands_lower_block yes hb e he).right.left⟩
  | .ifElse cond yes no _, loop, s, s', code, h => by
      obtain ⟨a, s₁, b, ha, hb, rfl⟩ := lower_ifElse_eq_ok h
      rw [Layout.ifElse_eq]
      simp only [Stmt.exprs, List.forall_mem_append, List.forall_mem_cons]
      exact ⟨(stands_self cond _).left.left.left.left.left,
        fun e he => (stands_lower_block yes ha e he).right.left.left.left,
        fun e he => (stands_lower_block no hb e he).right.left⟩
  | .while cond body _, loop, s, s', code, h => by
      obtain ⟨a, ha, rfl⟩ := lower_while_eq_ok h
      rw [Layout.loop_eq]
      exact List.forall_mem_cons.mpr ⟨(stands_self cond _).right.left.left.left,
        fun e he => (stands_lower_block body ha e he).right.left⟩
  | .break _, _, _, _, _, _ | .continue _, _, _, _, _, _ => fun e he => absurd he List.not_mem_nil
  | .write args _, loop, s, s', code, h => by
      rw [lower_write] at h
      cases h
      exact stands_lowerPrints args _

/-- Every expression of a block stands in its code. -/
theorem stands_lower_block : ∀ (b : Block) {loop : Option Loop} {s s' : Supply} {code : List Instr},
    b.lower loop s = .ok code s' → ∀ e ∈ b.exprs, Stands e code
  | ⟨statements, _⟩, _, _, _, _, h => stands_lowerAll statements h

/-- Every expression of statements in a row stands in their code. -/
theorem stands_lowerAll : ∀ (ss : List Stmt) {loop : Option Loop} {s s' : Supply}
    {code : List Instr}, lowerAll loop ss s = .ok code s' → ∀ e ∈ exprsOf ss, Stands e code
  | [], _, _, _, _, _ => fun e he => absurd he List.not_mem_nil
  | first :: more, loop, s, s', code, h => by
      obtain ⟨a, s₁, b, ha, hb, rfl⟩ := lowerAll_cons_eq_ok h
      exact List.forall_mem_append.mpr ⟨fun e he => (stands_lower_stmt first ha e he).left,
        fun e he => (stands_lowerAll more hb e he).right⟩

end

/-- **The code of a program holds the code of its expressions**, at any depth. -/
theorem stands_code {p : Program} {code : List Instr} (h : p.code = .ok code) :
    ∀ e ∈ p.exprs, Stands e code := by
  obtain ⟨s', hlower⟩ := code_eq_ok h
  have htop : ∀ e ∈ p.bodies.flatMap Block.exprs, Stands e code := by
    refine lower_program_rec (P := fun bs _ _ code => ∀ e ∈ bs.flatMap Block.exprs, Stands e code)
      (fun s e he => absurd he List.not_mem_nil) (fun s i hi e he => absurd he List.not_mem_nil)
      ?_ ?_ hlower
    · intro bs bs' s s₁ s' a b ha hb
      rw [List.flatMap_append]
      exact List.forall_mem_append.mpr ⟨fun e he => (ha e he).left, fun e he => (hb e he).right⟩
    · intro b s s' code hb
      rw [List.flatMap_singleton]
      exact stands_lower_block b hb
  intro e he
  obtain ⟨top, hmem, hin⟩ := mem_nestedOf.mp he
  obtain ⟨k, hk⟩ := htop top hmem
  rcases List.mem_cons.mp hin with rfl | hin
  · exact ⟨k, hk⟩
  · exact (stands_nested top k e hin).mono hk

/-! ## Operands -/

/-- The operands of an operator that has two of them, or the arguments of a call. -/
def Expr.operands? : Expr → Option (List Expr)
  | .binary _ left right _ => some [left, right]
  | .call _ args _ => some args
  | _ => none

/-- The operands of an expression have their code first, from left to right. One instruction reads them
    all behind it. -/
theorem lower_operands {e : Expr} {es : List Expr} (h : e.operands? = some es) (k : Nat) :
    ∃ reader, (e.lower k).code = (lowerArgs es k).code ++ [reader] ∧
      reader.reads = (lowerArgs es k).result := by
  cases e with
  | binary op left right span =>
      cases h
      refine ⟨.binary op (tempName ((right.lower (left.lower k).temps).temps + 1))
        (left.lower k).result (right.lower (left.lower k).temps).result, ?_, rfl⟩
      simp only [Expr.lower, lowerArgs, List.append_nil]
  | call callee args span =>
      cases h
      exact ⟨_, rfl, rfl⟩
  | _ => cases h

/-- The code of arguments can be cut between any two of them. -/
theorem lowerArgs_append (es es' : List Expr) (k : Nat) :
    lowerArgs (es ++ es') k =
      ⟨(lowerArgs es k).code ++ (lowerArgs es' (lowerArgs es k).temps).code,
        (lowerArgs es k).result ++ (lowerArgs es' (lowerArgs es k).temps).result,
        (lowerArgs es' (lowerArgs es k).temps).temps⟩ := by
  induction es generalizing k with
  | nil => rfl
  | cons e es ih =>
      rw [List.cons_append, lowerArgs, ih]
      simp only [lowerArgs, List.append_assoc, List.cons_append]

theorem length_lowerArgs_result (es : List Expr) (k : Nat) :
    (lowerArgs es k).result.length = es.length := by
  induction es generalizing k with
  | nil => rfl
  | cons e es ih => exact congrArg (· + 1) (ih _)

/-- The operands of an expression are inside it. -/
theorem operand_mem_nested {e operand : Expr} {es : List Expr} (h : e.operands? = some es)
    (hmem : operand ∈ es) : operand ∈ e.nested := by
  cases e with
  | binary op left right span =>
      cases h
      have hor : operand = left ∨ operand = right := by simpa using hmem
      rcases hor with rfl | rfl
      · exact List.mem_append_left _ List.mem_cons_self
      · exact List.mem_append_right _ List.mem_cons_self
  | call callee args span =>
      cases h
      exact mem_nestedOf.mpr ⟨operand, hmem, List.mem_cons_self⟩
  | _ => cases h

namespace Machine

variable {V : Type} {I : Meaning V}

/-! ## The main frame -/

/-- The main frame and the world after `n` steps, if no routine is being run then. -/
def mainFrame? (I : Meaning V) (program : List Instr) (g : Env V) (n : Nat) :
    Option (Frame V × World V) := do
  let s ← Section.find? none program
  match ← run I program n (.active (.enter s []) [] ⟨g, []⟩) with
  | .active f [] w => some (f, w)
  | _ => none

/-- What can be seen of a frame: its instructions, where it stands, and what `x` holds. -/
def glimpse (x : String) (r : Frame V × World V) : List Instr × Nat × Option V :=
  (r.1.code, r.1.pc, r.1.names.read r.2 x)

section MainFrame

variable {program sec : List Instr} {g : Env V} {m n pc pc' : Nat} {x y : String} {u v : Option V}

/-- The frame of the main section, some steps after the start. -/
theorem mainFrame?_eq_some {f : Frame V} {w : World V} :
    mainFrame? I program g n = some (f, w) ↔ ∃ s, Section.find? none program = some s ∧
      run I program n (.active (.enter s []) [] ⟨g, []⟩) = some (.active f [] w) := by
  simp only [mainFrame?, Option.bind_eq_bind, Option.bind_eq_some_iff]
  constructor
  · rintro ⟨s, hs, t, ht, h⟩
    split at h
    · cases h
      exact ⟨s, hs, ht⟩
    · cases h
  · rintro ⟨s, hs, ht⟩
    exact ⟨s, hs, _, ht, rfl⟩

/-- What the main frame comes to next is found by taking steps. -/
theorem exists_nextAt_of_mainFrame? (hm : (mainFrame? I program g m).map (glimpse x) = some (sec, pc, u))
    (hn : (mainFrame? I program g (m + n)).map (glimpse y) = some (sec, pc', v))
    (hfirst : ∀ j < n, ∀ r ∈ mainFrame? I program g (m + j), r.1.pc ≠ pc') :
    ∃ f w f' w', Visits I program g (.active f [] w) ∧ f.code = sec ∧ f.pc = pc ∧
      f.names.read w x = u ∧ NextAt I program [] f w pc' f' w' ∧ f'.code = sec ∧
      f'.names.read w' y = v := by
  obtain ⟨⟨f, w⟩, hf, hview⟩ := Option.map_eq_some_iff.mp hm
  obtain ⟨⟨f', w'⟩, hf', hview'⟩ := Option.map_eq_some_iff.mp hn
  cases hview
  obtain ⟨hsame, hpc, hvalue⟩ := by simpa only [glimpse, Prod.mk.injEq] using hview'
  obtain ⟨s, hs, hrun⟩ := mainFrame?_eq_some.mp hf
  -- the steps behind the first `m` are those of the frame that is reached by then
  have hadd : ∀ j h v, mainFrame? I program g (m + j) = some (h, v) ↔
      run I program j (.active f [] w) = some (.active h [] v) := by
    intro j h v
    rw [mainFrame?_eq_some]
    simp only [hs, Option.some.injEq, exists_eq_left', run_add, hrun, Option.bind_some]
  refine ⟨f, w, f', w', ⟨s, hs, m, hrun⟩, rfl, rfl, rfl, ?_, hsame, hvalue⟩
  refine ⟨hpc, n, (hadd n f' w').mp hf', fun j hj h v hjrun => ?_⟩
  exact hfirst j hj (h, v) ((hadd j h v).mpr hjrun)

end MainFrame

/-! ## Capture -/

/-- **Operands on the way to their reader.** A frame that comes to the end of the code of operands has
    come to the end of the code of each of them. From there on its value stays in its place, unless it is
    a bare global and an operand to its right makes a call that changes it. -/
theorem operand_read_iff {program : List Instr} {callers : List (Caller V)} {f f₂ : Frame V}
    {w w₂ : World V} {k : Nat} {before after : List Expr} {operand : Expr}
    (hcode : CodeAt f.code f.pc (lowerArgs (before ++ operand :: after) k).code)
    (hown : ∀ n, f.names.owns (tempName n) = true)
    (hname : ∀ x, operand.name? = some x → isTempName x = false)
    (h : NextAt I program callers f w
      (f.pc + (lowerArgs (before ++ operand :: after) k).code.length) f₂ w₂) :
    ∃ f₁ w₁, NextAt I program callers f w (f.pc + (lowerArgs before k).code.length
        + (operand.lower (lowerArgs before k).temps).code.length) f₁ w₁ ∧
      (f₂.names.read w₂ (operand.lower (lowerArgs before k).temps).result
          = f₁.names.read w₁ (operand.lower (lowerArgs before k).temps).result ↔
        ∀ x, operand.name? = some x → f.names.owns x = false → anyCall after = true →
          w₂.globals x = w₁.globals x) := by
  let a := lowerArgs before k
  let b := operand.lower a.temps
  let c := lowerArgs after b.temps
  have hsplit : (lowerArgs (before ++ operand :: after) k).code = (a.code ++ b.code) ++ c.code := by
    rw [lowerArgs_append, List.append_assoc]
    rfl
  rw [hsplit] at hcode h
  rw [List.length_append, ← Nat.add_assoc] at h
  -- up to the end of the code of the operand
  have hab : ∀ i ∈ a.code ++ b.code, i.Computes k true := by
    refine List.forall_mem_append.mpr ⟨fun i hi => ?_, fun i hi => ?_⟩
    · exact (computes_lowerArgs before k i hi).mono (Nat.le_refl k) (fun _ => rfl)
    · exact (computes_lower operand _ i hi).mono (le_temps_lowerArgs before k) (fun _ => rfl)
  obtain ⟨f₁, w₁, hto, hfrom, hsame, hkeeps, _⟩ :=
    h.through hcode.left hab hown (Nat.le_add_right _ _)
  have hown₁ : ∀ n, f₁.names.owns (tempName n) = true := fun n => (hkeeps.owns _).trans (hown n)
  -- and from there to the end of the code of the operands to its right
  have hcode₁ : CodeAt f₁.code f₁.pc c.code := by
    rw [hsame, hto.1]
    exact hcode.right
  obtain ⟨f', w', hlast, _, _, hkeeps₂, hworld⟩ :=
    hfrom.through hcode₁ (computes_lowerArgs after b.temps) hown₁ (Nat.le_of_eq (by rw [hto.1]))
  rw [hto.1] at hlast
  obtain ⟨rfl, rfl⟩ := hlast.unique hfrom
  rw [List.length_append, ← Nat.add_assoc] at hto
  refine ⟨f₁, w₁, hto, (read_result_iff hown₁ hname hkeeps₂).trans ?_⟩
  simp only [hkeeps.owns]
  constructor
  · intro hglobal x hx hfree _
    exact hglobal x hx hfree
  · intro hglobal x hx hfree
    cases hcalls : anyCall after with
    | true => exact hglobal x hx hfree hcalls
    | false => rw [hworld hcalls]

/-- **When operands are captured.** Take a program that passes its checks, with no identifier spelled like
    a temporary. Its code holds the code of each of its operators and calls, the last instruction of which
    reads the operands in order. A frame that runs from the start of that code to its last instruction
    comes to the end of the code of each operand on the way. What is read for the operand is what it was
    there, exactly if it is not a bare global that has another value by then; and it has the same value if
    no operand to its right makes a call. -/
theorem operand_captured_iff (I : Meaning V) (p : Program) (t : Table) (hcheck : p.check = .ok t)
    (hnames : ∀ x ∈ p.identifiers, isTempName x = false) :
    ∃ code, p.code = .ok code ∧ ∀ e ∈ p.exprs, ∀ es, e.operands? = some es →
      Stands e code ∧
      ∀ g f callers w k, Visits I code g (.active f callers w) →
        CodeAt f.code f.pc (e.lower k).code →
        ∀ f₂ w₂, NextAt I code callers f w (f.pc + (lowerArgs es k).code.length) f₂ w₂ →
        ∃ reader, (e.lower k).code.getLast? = some reader ∧ f₂.code[f₂.pc]? = some reader ∧
          ∀ before operand after, es = before ++ operand :: after →
            let a := lowerArgs before k
            let b := operand.lower a.temps
            CodeAt f.code (f.pc + a.code.length) b.code ∧
            reader.reads[before.length]? = some b.result ∧
            ∃ f₁ w₁, NextAt I code callers f w (f.pc + a.code.length + b.code.length) f₁ w₁ ∧
              (f₂.names.read w₂ b.result = f₁.names.read w₁ b.result ↔
                ∀ x, operand.name? = some x → f.names.owns x = false → anyCall after = true →
                  w₂.globals x = w₁.globals x) := by
  obtain ⟨code, hcode⟩ := exists_code_of_check hcheck
  refine ⟨code, hcode, fun e he es hes => ⟨stands_code hcode e he, ?_⟩⟩
  intro g f callers w k hvisits hat f₂ w₂ hnext
  obtain ⟨reader, hlower, hreads⟩ := lower_operands hes k
  rw [hlower] at hat ⊢
  have hown := owns_of_visits hvisits
  -- the frame comes to the end of the code of the operands in the section that it started in
  obtain ⟨f', w', hto, _, hsame, _, _⟩ :=
    hnext.through hat.left (computes_lowerArgs es k) hown (Nat.le_refl _)
  obtain ⟨rfl, rfl⟩ := hto.unique hnext
  refine ⟨reader, List.getLast?_concat, ?_, ?_⟩
  · rw [hsame, hto.1]
    exact hat.right.head
  · rintro before operand after rfl
    have hname : ∀ x, operand.name? = some x → isTempName x = false := by
      intro x hx
      have hin := operand_mem_nested hes (List.mem_append_right before List.mem_cons_self)
      have hx := identifiers_nested e operand hin (mem_identifiers_of_name? hx)
      exact hnames x (identifiers_of_mem_exprs he hx)
    rw [lowerArgs_append] at hreads
    refine ⟨?_, ?_, operand_read_iff hat.left hown hname hnext⟩
    · rw [lowerArgs_append] at hat
      exact hat.left.right.left
    · rw [hreads, List.getElem?_append_right (Nat.le_of_eq (length_lowerArgs_result before k)),
        length_lowerArgs_result, Nat.sub_self]
      rfl

/-! ### A call that changes an argument -/

/-- The call `less(first, bump())`. -/
def bumpedCall (first : Expr) : Expr :=
  let here : Span := ⟨0, 0, 1, 1⟩
  .call ⟨"less", here⟩ [first, .call ⟨"bump", here⟩ [] here] here

/-- The call is made where the global `x` is 1, and the function `bump` adds 1 to it. -/
def bumping (first : Expr) : Program :=
  let here : Span := ⟨0, 0, 1, 1⟩
  let id (x : String) : Ident := ⟨x, here⟩
  let var (x : String) : Expr := .var x here
  let bump : Block := ⟨[
    .assign (id "x") (.binary .add (var "x") (.int 1 here) here) here,
    .return (some (var "x")) here], here⟩
  let less : Block := ⟨[.return (some (.binary .sub (var "a") (var "b") here)) here], here⟩
  let main : Block := ⟨[
    .assign (id "x") (.int 1 here) here,
    .write [bumpedCall first] here], here⟩
  ⟨[.vars ⟨[id "x"], .integer, here⟩,
    .routine ⟨id "bump", [], some .integer, bump, here⟩,
    .routine ⟨id "less", [⟨[id "a", id "b"], .integer, here⟩], some .integer, less, here⟩], main, here⟩

/-- The program with the argument `x`, as it is written. -/
def bumpingText : String :=
  "var x: integer; function bump(): integer; begin x := x + 1; return x end; " ++
    "function less(a, b: integer): integer; begin return a - b end; " ++
    "begin x := 1; writeln(less(x, bump())) end."

/-- The code of the program. -/
def bumpedCode (first : Expr) : List Instr :=
  (bumping first).code.toOption.getD []

theorem code_bumping {first : Expr} {t : Table} (h : (bumping first).check = .ok t) :
    (bumping first).code = .ok (bumpedCode first) := by
  obtain ⟨code, hcode⟩ := exists_code_of_check h
  unfold bumpedCode
  rw [hcode]
  rfl

/-- The name `x`. -/
def bareX : Expr := .var "x" ⟨0, 0, 1, 1⟩

/-- The sum `x + x`. -/
def doubleX : Expr := .join .add bareX bareX

/-- Sums and differences of numbers. -/
def sums : Meaning Int :=
  .numbers fun
    | .add, a, b => some (a + b)
    | .sub, a, b => some (a - b)
    | _, _, _ => none

/-- The main section with the argument `x + x`. -/
def mainOfDoubleX : List Instr :=
  [.const "t4" (.int 1), .assign "x" "t4", .binary .add "t5" "x" "x", .call "t6" "bump" [],
    .call "t7" "less" ["t5", "t6"], .print "t7", .sectionEnd .main none]

/-- The main section with the argument `x`. -/
def mainOfBareX : List Instr :=
  [.const "t4" (.int 1), .assign "x" "t4", .call "t5" "bump" [], .call "t6" "less" ["x", "t5"],
    .print "t6", .sectionEnd .main none]

/-- A sum has code of its own: it is kept, although the global is another when it is read. -/
theorem operand_captured_sum :
    ∃ f w f₁ w₁ f₂ w₂, Visits sums (bumpedCode doubleX) (fun _ => none) (.active f [] w) ∧
      CodeAt f.code f.pc ((bumpedCall doubleX).lower 4).code ∧
      NextAt sums (bumpedCode doubleX) [] f w (f.pc + 1) f₁ w₁ ∧
      NextAt sums (bumpedCode doubleX) [] f w (f.pc + 2) f₂ w₂ ∧
      f.names.read w "x" = some 1 ∧ f₂.names.read w₂ "x" = some 2 ∧
      f₂.code[f₂.pc]? = some (.call "t7" "less" ["t5", "t6"]) ∧
      f₂.names.read w₂ "t5" = f₁.names.read w₁ "t5" := by
  have hstart : (mainFrame? sums (bumpedCode doubleX) (fun _ => none) 2).map (glimpse "x")
      = some (mainOfDoubleX, 2, some 1) := by decide +kernel
  have hread : (mainFrame? sums (bumpedCode doubleX) (fun _ => none) (2 + 6)).map (glimpse "x")
      = some (mainOfDoubleX, 4, some 2) := by decide +kernel
  obtain ⟨f, w, f₂, w₂, hvisits, hsection, hpc, hone, hnext, hsame, htwo⟩ :=
    exists_nextAt_of_mainFrame? hstart hread (by decide +kernel)
  have hat : CodeAt f.code f.pc ((bumpedCall doubleX).lower 4).code := by
    rw [hsection, hpc]
    exact ⟨[_, _], [_, _], rfl, rfl⟩
  rw [show 4 = f.pc + 2 by omega] at hnext
  obtain ⟨code, hcode, hall⟩ := operand_captured_iff sums (bumping doubleX) _ rfl (by decide)
  obtain rfl : bumpedCode doubleX = code := Except.ok.inj ((code_bumping rfl).symm.trans hcode)
  obtain ⟨_, hrun⟩ := hall (bumpedCall doubleX) (List.mem_of_getElem? (i := 8) rfl) _ rfl
  obtain ⟨reader, _, _, hoperands⟩ := hrun _ f [] w 4 hvisits hat f₂ w₂ hnext
  obtain ⟨_, _, f₁, w₁, hto, hiff⟩ := hoperands [] doubleX _ rfl
  refine ⟨f, w, f₁, w₁, f₂, w₂, hvisits, hat, hto, hnext, hone, htwo, ?_, hiff.mpr ?_⟩
  · rw [hsame, hnext.1, hpc]
    rfl
  · intro x hx
    cases hx

/-- **Operands are not always captured.** The argument `x` is 1 when its code is done, which is none at
    all, and the call reads 2 for it. -/
theorem operand_not_captured :
    ∃ t, (bumping bareX).check = .ok t ∧ (bumping bareX).code = .ok (bumpedCode bareX) ∧
      compile bumpingText = .ok (bumpedCode bareX) ∧
      (∀ x ∈ (bumping bareX).identifiers, isTempName x = false) ∧
      bumpedCall bareX ∈ (bumping bareX).exprs ∧
      ∃ f w f₂ w₂, Visits sums (bumpedCode bareX) (fun _ => none) (.active f [] w) ∧
        CodeAt f.code f.pc ((bumpedCall bareX).lower 4).code ∧
        NextAt sums (bumpedCode bareX) [] f w (f.pc + (bareX.lower 4).code.length) f w ∧
        NextAt sums (bumpedCode bareX) [] f w (f.pc + 1) f₂ w₂ ∧
        f₂.code[f₂.pc]? = some (.call "t6" "less" ["x", "t5"]) ∧
        f.names.read w "x" = some 1 ∧ f₂.names.read w₂ "x" = some 2 := by
  have hstart : (mainFrame? sums (bumpedCode bareX) (fun _ => none) 2).map (glimpse "x")
      = some (mainOfBareX, 2, some 1) := by decide +kernel
  have hread : (mainFrame? sums (bumpedCode bareX) (fun _ => none) (2 + 5)).map (glimpse "x")
      = some (mainOfBareX, 3, some 2) := by decide +kernel
  obtain ⟨f, w, f₂, w₂, hvisits, hsection, hpc, hone, hnext, hsame, htwo⟩ :=
    exists_nextAt_of_mainFrame? hstart hread (by decide +kernel)
  rw [show 3 = f.pc + 1 by omega] at hnext
  have htext : compile bumpingText = .ok (bumpedCode bareX) :=
    Except.eq_ok_of_toOption (by decide +kernel)
  refine ⟨_, rfl, code_bumping rfl, htext, by decide, List.mem_of_getElem? (i := 8) rfl, f, w, f₂, w₂,
    hvisits, ?_, .here, hnext, ?_, hone, htwo⟩
  · rw [hsection, hpc]
    exact ⟨[_, _], [_, _], rfl, rfl⟩
  · rw [hsame, hnext.1, hpc]
    rfl

end Machine
end TinyPascal
