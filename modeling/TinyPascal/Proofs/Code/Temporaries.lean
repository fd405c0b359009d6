import TinyPascal.Proofs.Code.Sections
import TinyPascal.Proofs.Compile

/-!
# `Proofs.Code.Temporaries` — the temporaries of a program

Every literal, every operator and every call leaves its value in a temporary of its own, and no other
instruction sets one. So the temporaries of a program are `t1`, `t2`, …, one after the other, up to the
number of those nodes in its tree. Temporaries and variables share one set of names, and nothing keeps
them apart: **a variable spelled like one of these temporaries is overwritten.**

## Contents
- **Temporaries of code.** `Instr.temp?`, `tempsOf`; `tempNames k n`: the `n` temporaries behind the
  `k`-th one.
- **Counting.** `Expr.tempCount`, `Program.tempCount`.
- **Lowering.** `TakesTemps n k k' code`: the code sets the next `n` temporaries behind the `k`-th one,
  in order. `takesTemps_lower_program`.
- **Other names.** `NoTemps`: no name of a block or statement is spelled like a temporary.
- **Variables.** `Program.variableNames`, `temporaries_clear_iff`: when the temporaries are clear of the
  variables. `temporaries_clash`: they are not always.
-/

namespace TinyPascal

/-! ## Temporaries of code -/

/-- The temporary that an instruction sets. An assignment sets a variable. -/
def Instr.temp? : Instr → Option Place
  | .const target _ | .binary _ target _ _ | .not target _ | .call target _ _ => some target
  | _ => none

/-- The temporaries that code sets, in order. -/
def tempsOf (code : List Instr) : List Place :=
  code.filterMap Instr.temp?

@[simp] theorem tempsOf_nil : tempsOf [] = [] := rfl

@[simp] theorem tempsOf_append (a b : List Instr) : tempsOf (a ++ b) = tempsOf a ++ tempsOf b :=
  List.filterMap_append

/-- The temporaries of code are those of its instructions, in order. -/
theorem tempsOf_cons (i : Instr) (rest : List Instr) :
    tempsOf (i :: rest) = i.temp?.toList ++ tempsOf rest := by
  cases h : i.temp? <;> simp [tempsOf, h]

/-- The `n` temporaries behind the `k`-th one. -/
def tempNames (k n : Nat) : List Place :=
  (List.range' (k + 1) n).map tempName

/-- Temporaries in a row can be cut anywhere. -/
theorem tempNames_add (k m n : Nat) :
    tempNames k (m + n) = tempNames k m ++ tempNames (k + m) n := by
  unfold tempNames
  have hbehind : k + m + 1 = k + 1 + m := by omega
  rw [hbehind, ← List.map_append, List.range'_append_1]

/-- The temporaries behind the `k`-th one, by their numbers. -/
theorem mem_tempNames {k n : Nat} {x : Place} :
    x ∈ tempNames k n ↔ ∃ j, k < j ∧ j ≤ k + n ∧ x = tempName j := by
  unfold tempNames
  simp only [List.mem_map, List.mem_range'_1]
  constructor
  · rintro ⟨j, hj, rfl⟩
    exact ⟨j, by omega, by omega, rfl⟩
  · rintro ⟨j, hlo, hhi, rfl⟩
    exact ⟨j, by omega, rfl⟩

theorem nodup_tempNames (k n : Nat) : (tempNames k n).Nodup := by
  unfold tempNames
  rw [List.nodup_iff_pairwise_ne, List.pairwise_map]
  have hnumbers : (List.range' (k + 1) n).Pairwise (· ≠ ·) :=
    List.nodup_iff_pairwise_ne.mp List.nodup_range'
  exact hnumbers.imp (fun hne he => hne (tempName_inj he))

/-! Jumps and labels set no temporaries, so a construct with blocks sets those of its condition and of
its blocks. -/

section Layouts

variable (c : Lowered Place) (yes no body : List Instr)

/-- An `if` without `else` sets no temporaries of its own. -/
theorem tempsOf_ifThen (stop : Label) :
    tempsOf (Layout.ifThen c stop body) = tempsOf (c.code ++ body) := by
  simp [Layout.ifThen, tempsOf_cons, Instr.temp?]

/-- An `if` with `else` sets no temporaries of its own. -/
theorem tempsOf_ifElse (first second stop : Label) :
    tempsOf (Layout.ifElse c first second stop yes no) = tempsOf (c.code ++ (yes ++ no)) := by
  simp [Layout.ifElse, tempsOf_cons, Instr.temp?]

theorem tempsOf_loop (l : Loop) : tempsOf (Layout.loop c l body) = tempsOf (c.code ++ body) := by
  simp [Layout.loop, tempsOf_cons, Instr.temp?]

end Layouts

/-! ## Counting -/

mutual

/-- The number of literals, operators and calls in an expression. -/
def Expr.tempCount : Expr → Nat
  | .int _ _ | .bool _ _ => 1
  | .var _ _ => 0
  | .paren inner _ => inner.tempCount
  | .not operand _ => operand.tempCount + 1
  | .binary _ left right _ => left.tempCount + right.tempCount + 1
  | .call _ args _ => tempCountOf args + 1

def tempCountOf : List Expr → Nat
  | [] => 0
  | e :: es => e.tempCount + tempCountOf es

end

/-- The number of literals, operators and calls in a program, call statements included. -/
def Program.tempCount (p : Program) : Nat :=
  tempCountOf (p.bodies.flatMap Block.exprs)

theorem tempCountOf_append (es es' : List Expr) :
    tempCountOf (es ++ es') = tempCountOf es + tempCountOf es' := by
  induction es with
  | nil => simp [tempCountOf]
  | cons e es ih =>
      rw [List.cons_append, tempCountOf, tempCountOf, ih]
      omega

/-! ## Lowering -/

/-- **Code that takes temporaries.** Lowered while the count of temporaries went from `k` to `k'`, the
    code sets the next `n` of them, in order and each once. -/
structure TakesTemps (n k k' : Nat) (code : List Instr) : Prop where
  count : k' = k + n
  names : tempsOf code = tempNames k n

namespace TakesTemps

variable {m n k k₁ k' : Nat} {a b : List Instr} {i : Instr}

theorem none (h : tempsOf a = []) : TakesTemps 0 k k a :=
  ⟨rfl, h⟩

/-- One instruction that sets the next temporary. -/
theorem one (h : i.temp? = some (tempName (k + 1))) : TakesTemps 1 k (k + 1) [i] := by
  refine ⟨rfl, ?_⟩
  simp [tempsOf, tempNames, h]

/-- Two pieces of code that take their temporaries one after the other. -/
theorem append (ha : TakesTemps m k k₁ a) (hb : TakesTemps n k₁ k' b) :
    TakesTemps (m + n) k k' (a ++ b) := by
  obtain ⟨rfl, ha⟩ := ha
  obtain ⟨rfl, hb⟩ := hb
  refine ⟨by omega, ?_⟩
  rw [tempsOf_append, ha, hb, tempNames_add]

theorem congr (ha : TakesTemps n k k' a) (h : tempsOf b = tempsOf a) : TakesTemps n k k' b :=
  ⟨ha.count, h.trans ha.names⟩

/-- Code in front of an instruction that sets no temporary. -/
theorem snoc (ha : TakesTemps n k k' a) (h : i.temp? = .none) : TakesTemps n k k' (a ++ [i]) :=
  ha.append (.none (by simp [tempsOf, h]))

end TakesTemps

mutual

/-- **An expression takes as many temporaries as it has literals, operators and calls.** -/
theorem takesTemps_lower : ∀ (e : Expr) (k : Nat),
    TakesTemps e.tempCount k (e.lower k).temps (e.lower k).code
  | .int _ _, _ | .bool _ _, _ => .one rfl
  | .var _ _, _ => .none rfl
  | .paren inner _, k => takesTemps_lower inner k
  | .not operand _, k => (takesTemps_lower operand k).append (.one rfl)
  | .binary _ left right _, k =>
      ((takesTemps_lower left k).append (takesTemps_lower right _)).append (.one rfl)
  | .call _ args _, k => (takesTemps_lowerArgs args k).append (.one rfl)

/-- Arguments take their temporaries from left to right. -/
theorem takesTemps_lowerArgs : ∀ (es : List Expr) (k : Nat),
    TakesTemps (tempCountOf es) k (lowerArgs es k).temps (lowerArgs es k).code
  | [], _ => .none rfl
  | e :: es, k => (takesTemps_lower e k).append (takesTemps_lowerArgs es _)

end

/-- Values to print take their temporaries from left to right. -/
theorem takesTemps_lowerPrints (es : List Expr) (k : Nat) :
    TakesTemps (tempCountOf es) k (lowerPrints es k).temps (lowerPrints es k).code := by
  induction es generalizing k with
  | nil => exact .none rfl
  | cons e es ih => exact ((takesTemps_lower e k).snoc rfl).append (ih _)

mutual

/-- **Statements take one temporary for each literal, operator and call**, in textual order. -/
theorem takesTemps_lower_stmt : ∀ (st : Stmt) {loop : Option Loop} {s s' : Supply}
    {code : List Instr}, st.lower loop s = .ok code s' →
    TakesTemps (tempCountOf st.exprs) s.temps s'.temps code
  | .assign target value _, loop, s, s', code, h => by
      rw [lower_assign] at h
      cases h
      exact (takesTemps_lower value s.temps).snoc rfl
  | .call callee args span, loop, s, s', code, h => by
      rw [lower_call] at h
      cases h
      exact takesTemps_lower (.call callee args span) s.temps
  | .return none _, loop, s, s', code, h => by
      rw [lower_return_none] at h
      cases h
      exact .none rfl
  | .return (some value) _, loop, s, s', code, h => by
      rw [lower_return_some] at h
      cases h
      exact (takesTemps_lower value s.temps).snoc rfl
  | .ifThen cond yes _, loop, s, s', code, h => by
      obtain ⟨body, hb, rfl⟩ := lower_ifThen_eq_ok h
      exact ((takesTemps_lower cond s.temps).append (takesTemps_lower_block yes hb)).congr
        (tempsOf_ifThen _ _ _)
  | .ifElse cond yes no _, loop, s, s', code, h => by
      obtain ⟨a, s₁, b, ha, hb, rfl⟩ := lower_ifElse_eq_ok h
      have hblocks := (takesTemps_lower_block yes ha).append (takesTemps_lower_block no hb)
      unfold Stmt.exprs
      rw [tempCountOf, tempCountOf_append]
      exact ((takesTemps_lower cond s.temps).append hblocks).congr (tempsOf_ifElse _ _ _ _ _ _)
  | .while cond body _, loop, s, s', code, h => by
      obtain ⟨a, ha, rfl⟩ := lower_while_eq_ok h
      exact ((takesTemps_lower cond s.temps).append (takesTemps_lower_block body ha)).congr
        (tempsOf_loop _ _ _)
  | .break _, none, s, s', code, h => by cases h
  | .break _, some l, s, s', code, h => by cases h; exact .none rfl
  | .continue _, none, s, s', code, h => by cases h
  | .continue _, some l, s, s', code, h => by cases h; exact .none rfl
  | .write args _, loop, s, s', code, h => by
      rw [lower_write] at h
      cases h
      exact takesTemps_lowerPrints args s.temps

/-- The temporaries of a block. -/
theorem takesTemps_lower_block : ∀ (b : Block) {loop : Option Loop} {s s' : Supply}
    {code : List Instr}, b.lower loop s = .ok code s' →
    TakesTemps (tempCountOf b.exprs) s.temps s'.temps code
  | ⟨statements, _⟩, _, _, _, _, h => takesTemps_lowerAll statements h

/-- Statements in a row take their temporaries one after the other. -/
theorem takesTemps_lowerAll : ∀ (ss : List Stmt) {loop : Option Loop} {s s' : Supply}
    {code : List Instr}, lowerAll loop ss s = .ok code s' →
    TakesTemps (tempCountOf (exprsOf ss)) s.temps s'.temps code
  | [], loop, s, s', code, h => by cases h; exact .none rfl
  | first :: more, loop, s, s', code, h => by
      obtain ⟨a, s₁, b, ha, hb, rfl⟩ := lowerAll_cons_eq_ok h
      unfold exprsOf
      rw [tempCountOf_append]
      exact (takesTemps_lower_stmt first ha).append (takesTemps_lowerAll more hb)

end

/-- **The temporaries of a program**, lowered with any supply: the next ones, in order, as many as it has
    literals, operators and calls. -/
theorem takesTemps_lower_program {p : Program} {s s' : Supply} {code : List Instr}
    (h : p.lower s = .ok code s') : TakesTemps p.tempCount s.temps s'.temps code := by
  refine lower_program_rec (P := fun bs s s' code =>
    TakesTemps (tempCountOf (bs.flatMap Block.exprs)) s.temps s'.temps code)
    (fun s => .none rfl) ?_ ?_ ?_ h
  · intro s i hi
    cases i with
    | decl _ _ | sectionStart _ _ _ _ | sectionEnd _ _ => exact .none rfl
    | _ => cases hi
  · intro bs bs' s s₁ s' a b ha hb
    rw [List.flatMap_append, tempCountOf_append]
    exact ha.append hb
  · intro b s s' code hb
    rw [List.flatMap_singleton]
    exact takesTemps_lower_block b hb

/-! ## Other names -/

/-- No name in a block or statement is spelled like a temporary: none that it assigns to, and none in
    its expressions. -/
structure NoTemps (targets : List String) (exprs : List Expr) : Prop where
  targets : ∀ x ∈ targets, isTempName x = false
  exprs : ∀ e ∈ exprs, ∀ x ∈ e.identifiers, isTempName x = false

namespace NoTemps

variable {ts ts' : List String} {es es' : List Expr} {e : Expr}

theorem left (h : NoTemps (ts ++ ts') (es ++ es')) : NoTemps ts es :=
  ⟨(List.forall_mem_append.mp h.targets).1, (List.forall_mem_append.mp h.exprs).1⟩

theorem right (h : NoTemps (ts ++ ts') (es ++ es')) : NoTemps ts' es' :=
  ⟨(List.forall_mem_append.mp h.targets).2, (List.forall_mem_append.mp h.exprs).2⟩

theorem head (h : NoTemps ts (e :: es)) : ∀ x ∈ e.identifiers, isTempName x = false :=
  (List.forall_mem_cons.mp h.exprs).1

theorem tail (h : NoTemps ts (e :: es)) : NoTemps ts es :=
  ⟨h.targets, (List.forall_mem_cons.mp h.exprs).2⟩

/-- A block whose identifiers are not spelled like temporaries. -/
theorem block {b : Block} (h : ∀ x ∈ b.identifiers, isTempName x = false) :
    NoTemps b.targets b.exprs := by
  obtain ⟨htargets, hexprs⟩ := List.forall_mem_append.mp h
  exact ⟨htargets, fun e he x hx => hexprs x (List.mem_flatMap.mpr ⟨e, he, hx⟩)⟩

end NoTemps

/-! ## Variables -/

/-- The variables that a declaration declares: global variables, or the parameters of a routine. -/
def Decl.variableNames : Decl → List String
  | .vars decl => decl.names.map Ident.name
  | .routine r => r.paramNames

/-- The names of variables: of global variables and parameters, and those that are assigned to. -/
def Program.variableNames (p : Program) : List String :=
  p.declarations.flatMap Decl.variableNames ++ p.bodies.flatMap Block.targets

/-- **When temporaries are clear of variables.** The temporaries of a compiled text are the first ones,
    as many as its tree has literals, operators and calls. None of them is a variable exactly if no
    variable is spelled like one of those; so they are clear if no variable has the spelling of a
    temporary at all. -/
theorem temporaries_clear_iff (source : String) (code : List Instr) (h : compile source = .ok code) :
    ∃ tree t, check source = .ok (tree, t) ∧ tempsOf code = tempNames 0 tree.tempCount ∧
      ((∀ x ∈ tempsOf code, x ∉ tree.variableNames) ↔
        ∀ n, 0 < n → n ≤ tree.tempCount → tempName n ∉ tree.variableNames) ∧
      ((∀ x ∈ tree.variableNames, isTempName x = false) →
        ∀ x ∈ tempsOf code, x ∉ tree.variableNames) := by
  obtain ⟨tree, t, hcheck, hcode⟩ := compile_eq_ok h
  obtain ⟨s', hlower⟩ := code_eq_ok hcode
  have hnames : tempsOf code = tempNames 0 tree.tempCount := (takesTemps_lower_program hlower).names
  refine ⟨tree, t, hcheck, hnames, ⟨?_, ?_⟩, ?_⟩
  · intro hclear n hpos hle
    apply hclear
    rw [hnames]
    exact mem_tempNames.mpr ⟨n, hpos, by omega, rfl⟩
  · intro hclear x hx
    rw [hnames] at hx
    obtain ⟨n, hpos, hle, rfl⟩ := mem_tempNames.mp hx
    exact hclear n hpos (by omega)
  · intro hspelling x hx hvariable
    rw [hnames] at hx
    obtain ⟨n, _, _, rfl⟩ := mem_tempNames.mp hx
    exact absurd rfl (ne_tempName (hspelling _ hvariable) n)

/-- Two values are computed here, and the variable is spelled like the third temporary. -/
theorem temporaries_clear_difference :
    ∃ code tree t, compile "var t3: integer; begin t3 := 1 - t3 end." = .ok code ∧
      check "var t3: integer; begin t3 := 1 - t3 end." = .ok (tree, t) ∧
      tree.variableNames = ["t3", "t3"] ∧ ∀ x ∈ tempsOf code, x ∉ tree.variableNames := by
  have hcode : compile "var t3: integer; begin t3 := 1 - t3 end." = .ok [.decl ["t3"] .integer,
      .sectionStart .main none [] none, .const "t1" (.int 1), .binary .sub "t2" "t1" "t3",
      .assign "t3" "t2", .sectionEnd .main none] := Except.eq_ok_of_toOption (by decide +kernel)
  obtain ⟨tree, t, hcheck, _, hiff, _⟩ := temporaries_clear_iff _ _ hcode
  have htree : (check "var t3: integer; begin t3 := 1 - t3 end.").toOption.map
      (fun r => (r.1.tempCount, r.1.variableNames)) = some (2, ["t3", "t3"]) := by decide +kernel
  rw [hcheck] at htree
  obtain ⟨hcount, hvariables⟩ := Prod.mk.inj (Option.some.inj htree)
  refine ⟨_, tree, t, hcode, hcheck, hvariables, hiff.mpr ?_⟩
  intro n hpos hle hvariable
  have hbelow : n ≤ 2 := hcount ▸ hle
  rw [hvariables] at hvariable
  have hthird : tempName n = tempName 3 := by
    simp only [List.mem_cons, List.not_mem_nil, or_false, or_self] at hvariable
    exact hvariable
  have := tempName_inj hthird
  omega

/-- A variable that is spelled like the second temporary. -/
def clashing : String :=
  "var t2: integer; begin t2 := 1; writeln(t2 + 5) end."

/-- **Temporaries are not always clear of variables.** The variable is set to 1, and then the value of the
    literal 5 is written over it. -/
theorem temporaries_clash :
    ∃ tree t code, check clashing = .ok (tree, t) ∧ compile clashing = .ok code ∧
      [.assign "t2" "t1", .const "t2" (.int 5)] <:+: code ∧
      ∃ x ∈ tempsOf code, x ∈ tree.variableNames := by
  have hcode : compile clashing = .ok [.decl ["t2"] .integer, .sectionStart .main none [] none,
      .const "t1" (.int 1), .assign "t2" "t1", .const "t2" (.int 5), .binary .add "t3" "t2" "t2",
      .print "t3", .sectionEnd .main none] := Except.eq_ok_of_toOption (by decide +kernel)
  obtain ⟨tree, t, hcheck, _⟩ := compile_eq_ok hcode
  have htree : (check clashing).toOption.map (fun r => r.1.variableNames) = some ["t2", "t2"] := by
    decide +kernel
  rw [hcheck] at htree
  have hvariables : tree.variableNames = ["t2", "t2"] := Option.some.inj htree
  refine ⟨tree, t, _, hcheck, hcode, ⟨[_, _, _], [_, _, _], rfl⟩, "t2", by decide, ?_⟩
  rw [hvariables]
  exact List.mem_cons_self

end TinyPascal
