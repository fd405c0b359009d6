import TinyPascal.Proofs.Semantics.BigStep
import TinyPascal.Proofs.Semantics.Match

/-!
# `Proofs.Semantics.Expressions` — the code of expressions computes their values

For each judgement about expressions there is a predicate which says that the machine, on the code of
the tree, does what the judgement says (`EvalSim`, `ArgsSim`, `CallSim`, `PrintSim`), and for each rule
a lemma about these predicates.

## Contents
- **Tame trees.** No identifier has the spelling of a temporary, and every expression is settled.
- **Expressions without calls.** They leave the world as it is, so a value stays in its place
  (`read_result_iff`, `read_result_kept`).
- **Rules.** `EvalSim.binary`, `EvalSim.call` and the others.
-/

namespace TinyPascal
namespace Machine

/-! ## Tame trees -/

/-- An expression whose identifiers are no temporaries, and which no call disturbs. -/
structure Tame (e : Expr) : Prop where
  settled : e.settled = true
  names : ∀ x ∈ e.identifiers, isTempName x = false

/-- Arguments of which the same is true. -/
structure TameArgs (es : List Expr) : Prop where
  settled : settledArgs es = true
  names : ∀ x ∈ identifiersOf es, isTempName x = false

/-- The expressions and the assigned names of statements are tame. -/
structure TameCode (exprs : List Expr) (targets : List String) : Prop where
  exprs : ∀ e ∈ exprs, Tame e
  targets : ∀ x ∈ targets, isTempName x = false

namespace Tame

variable {e l r : Expr} {op : BinOp} {callee : Ident} {es : List Expr} {span : Span}

theorem paren (h : Tame (.paren e span)) : Tame e := ⟨h.settled, h.names⟩

theorem not (h : Tame (.not e span)) : Tame e := ⟨h.settled, h.names⟩

theorem left (h : Tame (.binary op l r span)) : Tame l := by
  obtain ⟨hs, hn⟩ := h
  simp only [Expr.settled, Bool.and_eq_true] at hs
  exact ⟨hs.1.1, fun x hx => hn x (List.mem_append_left _ hx)⟩

theorem right (h : Tame (.binary op l r span)) : Tame r := by
  obtain ⟨hs, hn⟩ := h
  simp only [Expr.settled, Bool.and_eq_true] at hs
  exact ⟨hs.1.2, fun x hx => hn x (List.mem_append_right _ hx)⟩

/-- A left operand that is a name has no call to its right. -/
theorem clear (h : Tame (.binary op l r span)) : l.clearOf r.hasCall = true := by
  have hs := h.settled
  simp only [Expr.settled, Bool.and_eq_true] at hs
  exact hs.2

theorem args (h : Tame (.call callee es span)) : TameArgs es :=
  ⟨h.settled, fun x hx => h.names x (List.mem_cons_of_mem _ hx)⟩

end Tame

namespace TameArgs

variable {e : Expr} {es : List Expr}

theorem head (h : TameArgs (e :: es)) : Tame e := by
  obtain ⟨hs, hn⟩ := h
  simp only [settledArgs, Bool.and_eq_true] at hs
  exact ⟨hs.1.1, fun x hx => hn x (List.mem_append_left _ hx)⟩

theorem tail (h : TameArgs (e :: es)) : TameArgs es := by
  obtain ⟨hs, hn⟩ := h
  simp only [settledArgs, Bool.and_eq_true] at hs
  exact ⟨hs.1.2, fun x hx => hn x (List.mem_append_right _ hx)⟩

theorem clear (h : TameArgs (e :: es)) : e.clearOf (anyCall es) = true := by
  have hs := h.settled
  simp only [settledArgs, Bool.and_eq_true] at hs
  exact hs.2

end TameArgs

namespace TameCode

variable {es es' : List Expr} {xs xs' : List String}

theorem mono (h : TameCode es xs) (he : es' ⊆ es) (hx : xs' ⊆ xs) : TameCode es' xs' :=
  ⟨fun e h' => h.exprs e (he h'), fun x h' => h.targets x (hx h')⟩

end TameCode

/-- An identifier that an expression consists of is no temporary. -/
theorem Tame.name {e : Expr} {x : String} (h : Tame e) (hx : e.name? = some x) :
    isTempName x = false :=
  h.names x (mem_identifiers_of_name? hx)

/-! ## Expressions without calls -/

/-- A name that is clear of what stands to its right has no call there. -/
theorem hasCall_of_clearOf {e : Expr} {calls : Bool} {x : String} (h : e.clearOf calls = true)
    (hx : e.name? = some x) : calls = false := by
  simpa [Expr.clearOf, hx] using h

variable {V : Type} {I : Meaning V} {p : Program} {program : List Instr}

mutual

/-- Without a call, evaluating an expression leaves the world as it is. -/
theorem world_eq_of_eval : ∀ (e : Expr) {σ : Activation V} {w w' : World V} {r : Option V},
    e.hasCall = false → Eval I p σ w e r w' → w' = w
  | .int _ _, _, _, _, _, _, .int => rfl
  | .bool _ _, _, _, _, _, _, .bool => rfl
  | .var _ _, _, _, _, _, _, .var => rfl
  | .paren inner _, _, _, _, _, hc, .paren h => world_eq_of_eval inner hc h
  | .not operand _, _, _, _, _, hc, .not h _ => world_eq_of_eval operand hc h
  | .binary _ left right _, _, _, _, _, hc, .binary hl hr _ => by
      simp only [Expr.hasCall, Bool.or_eq_false_iff] at hc
      rw [world_eq_of_eval right hc.2 hr, world_eq_of_eval left hc.1 hl]

/-- Arguments without calls leave the world as it is. -/
theorem world_eq_of_evalArgs : ∀ (es : List Expr) {σ : Activation V} {w w' : World V}
    {rs : List (Option V)}, anyCall es = false → EvalArgs I p σ w es rs w' → w' = w
  | [], _, _, _, _, _, .nil => rfl
  | e :: es, _, _, _, _, hc, .cons h hs => by
      simp only [anyCall, Bool.or_eq_false_iff] at hc
      rw [world_eq_of_evalArgs es hc.2 hs, world_eq_of_eval e hc.1 h]

end

/-- **The value of an expression is still in its place**, after code has set later temporaries only,
    exactly if the expression is not a global that has another value by then. -/
theorem read_result_iff {e : Expr} {k : Nat} {τ τ' : Activation V} {w w' : World V}
    (hown : ∀ n, τ.owns (tempName n) = true) (hname : ∀ x, e.name? = some x → isTempName x = false)
    (hkeeps : Keeps (e.lower k).temps τ τ') :
    τ'.read w' (e.lower k).result = τ.read w (e.lower k).result ↔
      ∀ x, e.name? = some x → τ.owns x = false → w'.globals x = w.globals x := by
  have hagree : Agree τ τ := ⟨fun _ => rfl, fun _ => rfl, hown⟩
  cases hn : e.name? with
  | none =>
      -- a temporary is older than all that the later code sets
      obtain ⟨j, _, hj, hplace⟩ := exists_temp_of_lower hn k
      rw [hplace]
      refine iff_of_true (hkeeps.read_temp hagree hj) (fun x hx => ?_)
      cases hx
  | some x =>
      -- a name is read where its value is needed, so a global may be another by then
      have hslot : τ'.slots x = τ.slots x :=
        hkeeps.slots x (fun j _ => ne_tempName (hname x hn) j)
      rw [lower_of_name? hn]
      simp only [Activation.read, hkeeps.owns x, hslot, Option.some.injEq, forall_eq']
      cases τ.owns x <;> simp

/-- **The value of an expression stays in its place** while code behind it runs: a temporary because
    later code writes later temporaries only, a name because nothing is called. -/
theorem read_result_kept {e : Expr} {k : Nat} {σ τ τ' : Activation V} {w w' : World V} (he : Tame e)
    (ha : Agree σ τ) (hk : Keeps (e.lower k).temps τ τ') (hw : ∀ x, e.name? = some x → w' = w) :
    τ'.read w' (e.lower k).result = τ.read w (e.lower k).result := by
  refine (read_result_iff ha.temps (fun x hx => he.name hx) hk).mpr (fun x hx _ => ?_)
  rw [hw x hx]

/-! ## What the code of each judgement does -/

/-- The code of `e` computes `r`: it leaves it in its place, and changes nothing else but temporaries of
    its own. -/
def EvalSim (I : Meaning V) (program : List Instr) (σ : Activation V) (w : World V) (e : Expr)
    (r : Option V) (w' : World V) : Prop :=
  ∀ (k : Nat) (code : List Instr) (pc : Nat) (τ : Activation V) (callers : List (Caller V)),
    Tame e → CodeAt code pc (e.lower k).code → Agree σ τ →
    ∃ τ', Reaches I program (.active ⟨code, pc, τ⟩ callers w)
        (.active ⟨code, pc + (e.lower k).code.length, τ'⟩ callers w')
      ∧ Keeps k τ τ' ∧ τ'.read w' (e.lower k).result = r

/-- The code of arguments leaves their values in their places. -/
def ArgsSim (I : Meaning V) (program : List Instr) (σ : Activation V) (w : World V) (es : List Expr)
    (rs : List (Option V)) (w' : World V) : Prop :=
  ∀ (k : Nat) (code : List Instr) (pc : Nat) (τ : Activation V) (callers : List (Caller V)),
    TameArgs es → CodeAt code pc (lowerArgs es k).code → Agree σ τ →
    ∃ τ', Reaches I program (.active ⟨code, pc, τ⟩ callers w)
        (.active ⟨code, pc + (lowerArgs es k).code.length, τ'⟩ callers w')
      ∧ Keeps k τ τ' ∧ (lowerArgs es k).result.map (τ'.read w') = rs

/-- The section of a routine runs from its first instruction to the end of its activation. -/
def CallSim (I : Meaning V) (program : List Instr) (w : World V) (f : String) (vs : List V)
    (r : Option V) (w' : World V) : Prop :=
  ∃ s, Section.find? (some f) program = some s ∧ s.params.length = vs.length ∧
    ∀ callers, Reaches I program (.active (.enter s vs) callers w) (.leave r w' callers)

/-- The code of a `writeln` prints. -/
def PrintSim (I : Meaning V) (program : List Instr) (σ : Activation V) (w : World V) (es : List Expr)
    (w' : World V) : Prop :=
  ∀ (k : Nat) (code : List Instr) (pc : Nat) (τ : Activation V) (callers : List (Caller V)),
    (∀ e ∈ es, Tame e) → CodeAt code pc (lowerPrints es k).code → Agree σ τ →
    ∃ τ', Reaches I program (.active ⟨code, pc, τ⟩ callers w)
        (.active ⟨code, pc + (lowerPrints es k).code.length, τ'⟩ callers w')
      ∧ Agree σ τ'

/-! ## Single steps -/

/-- Reading several places gives values if every single one gives one. -/
theorem mapM_eq_some_iff {α β : Type} {f : α → Option β} {xs : List α} {ys : List β} :
    xs.mapM f = some ys ↔ xs.map f = ys.map some := by
  induction xs generalizing ys with
  | nil => cases ys <;> simp
  | cons x xs ih =>
      rw [List.mapM_cons]
      cases ys with
      | nil => cases h : f x <;> simp [Option.bind_eq_some_iff]
      | cons y ys =>
          cases h : f x with
          | none => simp [h]
          | some v =>
              simp only [Option.bind_eq_bind, Option.bind_some, Option.bind_eq_some_iff, ih,
                Option.pure_def, Option.some.injEq, List.cons.injEq, List.map_cons, h]
              constructor
              · rintro ⟨_, hxs, rfl, rfl⟩
                exact ⟨rfl, hxs⟩
              · rintro ⟨rfl, hxs⟩
                exact ⟨ys, hxs, rfl, rfl⟩

/-- A frame executes the instruction that it stands at. -/
theorem step_active {f : Frame V} {callers : List (Caller V)} {w : World V} {i : Instr}
    (h : f.code[f.pc]? = some i) :
    step I program (.active f callers w) = execute I program f callers w i := by
  show (f.code[f.pc]?).bind (execute I program f callers w) = _
  rw [h]
  rfl

/-- An instruction that sets a temporary. -/
theorem reaches_set_temp {σ τ : Activation V} {code : List Instr} {pc j : Nat}
    {callers : List (Caller V)} {w : World V} {i : Instr} {r : Option V} (ha : Agree σ τ)
    (hi : code[pc]? = some i)
    (hx : execute I program ⟨code, pc, τ⟩ callers w i
      = some (.set ⟨code, pc, τ⟩ callers w (tempName j) r)) :
    Reaches I program (.active ⟨code, pc, τ⟩ callers w)
      (.active ⟨code, pc + 1, τ.set (tempName j) r⟩ callers w) := by
  refine .single ?_
  rw [step_active hi, hx, State.set, ha.world_set_temp]
  rfl

/-! ## Expressions -/

section Expressions

variable {σ : Activation V} {w w₁ w₂ : World V} {e left right : Expr} {es : List Expr} {span : Span}
  {r : Option V} {rs : List (Option V)} {a b v : V}

/-- A literal is put into a temporary. -/
theorem EvalSim.int {n : Int} : EvalSim I program σ w (.int n span) (some (I.literal (.int n))) w := by
  intro k code pc τ callers _ hcode ha
  exact ⟨_, reaches_set_temp ha hcode.head rfl, .set_temp (Nat.lt_succ_self k), ha.read_set_temp _⟩

/-- A literal is put into a temporary. -/
theorem EvalSim.bool {b : Bool} :
    EvalSim I program σ w (.bool b span) (some (I.literal (.bool b))) w := by
  intro k code pc τ callers _ hcode ha
  exact ⟨_, reaches_set_temp ha hcode.head rfl, .set_temp (Nat.lt_succ_self k), ha.read_set_temp _⟩

/-- A name needs no code: its value is read where it is used. -/
theorem EvalSim.var {x : String} : EvalSim I program σ w (.var x span) (σ.read w x) w := by
  intro k code pc τ callers ht _ ha
  exact ⟨τ, .refl, .refl, ha.read (ht.names x List.mem_cons_self)⟩

/-- Parentheses need no code. -/
theorem EvalSim.paren (h : EvalSim I program σ w e r w₁) :
    EvalSim I program σ w (.paren e span) r w₁ :=
  fun k code pc τ callers ht hcode ha => h k code pc τ callers ht.paren hcode ha

/-- The value of the operand is negated into a temporary. -/
theorem EvalSim.not (h : EvalSim I program σ w e (some a) w₁) (hv : I.negate a = some v) :
    EvalSim I program σ w (.not e span) (some v) w₁ := by
  intro k code pc τ callers ht hcode ha
  simp only [Expr.lower] at hcode ⊢
  obtain ⟨τ₁, hr₁, hk₁, hv₁⟩ := h k code pc τ callers ht.not hcode.left ha
  have ha₁ := hk₁.agree ha
  have hx : execute I program ⟨code, pc + (e.lower k).code.length, τ₁⟩ callers w₁
      (.not (tempName ((e.lower k).temps + 1)) (e.lower k).result)
      = some (.set ⟨code, pc + (e.lower k).code.length, τ₁⟩ callers w₁
          (tempName ((e.lower k).temps + 1)) (some v)) := by
    simp [execute, hv₁, hv]
  refine ⟨_, ?_, hk₁.trans (.set_temp (Nat.lt_succ_self _)) (le_temps_lower e k),
    ha₁.read_set_temp _⟩
  rw [List.length_append, ← Nat.add_assoc]
  exact hr₁.trans (reaches_set_temp ha₁ hcode.right.head hx)

/-- **The left operand keeps its value while the right one is computed**: a temporary is not set again,
    and a name is only to the left of operands without calls. -/
theorem EvalSim.binary {op : BinOp} (hl : EvalSim I program σ w left (some a) w₁)
    (hr : EvalSim I program σ w₁ right (some b) w₂) (hv : I.binary op a b = some v)
    (hw : right.hasCall = false → w₂ = w₁) :
    EvalSim I program σ w (.binary op left right span) (some v) w₂ := by
  intro k code pc τ callers ht hcode ha
  simp only [Expr.lower, List.append_assoc] at hcode ⊢
  obtain ⟨τ₁, hr₁, hk₁, hv₁⟩ := hl k code pc τ callers ht.left hcode.left ha
  have ha₁ := hk₁.agree ha
  obtain ⟨τ₂, hr₂, hk₂, hv₂⟩ := hr (left.lower k).temps code _ τ₁ callers ht.right
    hcode.right.left ha₁
  have ha₂ := hk₂.agree ha₁
  -- the left value is still in its place when the operator reads it
  have hv₁' : τ₂.read w₂ (left.lower k).result = some a := by
    rw [← hv₁]
    exact read_result_kept ht.left ha₁ hk₂ (fun x hx => hw (hasCall_of_clearOf ht.clear hx))
  have hle := Nat.le_trans (le_temps_lower left k) (le_temps_lower right _)
  refine ⟨_, ?_, (hk₁.trans hk₂ (le_temps_lower left k)).trans (.set_temp (Nat.lt_succ_self _)) hle,
    ha₂.read_set_temp _⟩
  simp only [List.length_append, ← Nat.add_assoc]
  refine (hr₁.trans hr₂).trans (reaches_set_temp ha₂ hcode.right.right.head ?_)
  simp [execute, hv₁', hv₂, hv]

theorem ArgsSim.nil : ArgsSim I program σ w [] [] w := by
  intro k code pc τ callers _ _ _
  exact ⟨τ, .refl, .refl, rfl⟩

/-- An argument keeps its value while those behind it are computed, as an operand does. -/
theorem ArgsSim.cons (h : EvalSim I program σ w e r w₁) (hs : ArgsSim I program σ w₁ es rs w₂)
    (hw : anyCall es = false → w₂ = w₁) : ArgsSim I program σ w (e :: es) (r :: rs) w₂ := by
  intro k code pc τ callers ht hcode ha
  simp only [lowerArgs] at hcode ⊢
  obtain ⟨τ₁, hr₁, hk₁, hv₁⟩ := h k code pc τ callers ht.head hcode.left ha
  have ha₁ := hk₁.agree ha
  obtain ⟨τ₂, hr₂, hk₂, hv₂⟩ := hs (e.lower k).temps code _ τ₁ callers ht.tail hcode.right ha₁
  refine ⟨τ₂, ?_, hk₁.trans hk₂ (le_temps_lower e k), ?_⟩
  · rw [List.length_append, ← Nat.add_assoc]
    exact hr₁.trans hr₂
  -- the first value stays in its place while the other arguments are computed
  · rw [List.map_cons, hv₂, ← hv₁]
    congr 1
    exact read_result_kept ht.head ha₁ hk₂ (fun x hx => hw (hasCall_of_clearOf ht.clear hx))

/-- The values of the arguments are read by the call, and its result is put into a temporary. -/
theorem EvalSim.call {callee : Ident} {vs : List V}
    (hs : ArgsSim I program σ w es (vs.map some) w₁)
    (hc : CallSim I program w₁ callee.name vs r w₂) :
    EvalSim I program σ w (.call callee es span) r w₂ := by
  intro k code pc τ callers ht hcode ha
  simp only [Expr.lower] at hcode ⊢
  obtain ⟨τ₁, hr₁, hk₁, hv₁⟩ := hs k code pc τ callers ht.args hcode.left ha
  have ha₁ := hk₁.agree ha
  obtain ⟨s, hfind, hlen, hrun⟩ := hc
  refine ⟨_, ?_, hk₁.trans (.set_temp (Nat.lt_succ_self _)) (le_temps_lowerArgs es k),
    ha₁.read_set_temp _⟩
  rw [List.length_append, ← Nat.add_assoc]
  -- the call opens a frame, and the end of the activation hands the result to the temporary
  have hstep : Reaches I program
      (.active ⟨code, pc + (lowerArgs es k).code.length, τ₁⟩ callers w₁)
      (.active (.enter s vs) (⟨⟨code, pc + (lowerArgs es k).code.length, τ₁⟩,
        tempName ((lowerArgs es k).temps + 1)⟩ :: callers) w₁) := by
    refine .single ?_
    rw [step_active hcode.right.head]
    simp [execute, mapM_eq_some_iff.mpr hv₁, hfind, hlen]
  have hback := hrun (⟨⟨code, pc + (lowerArgs es k).code.length, τ₁⟩,
    tempName ((lowerArgs es k).temps + 1)⟩ :: callers)
  rw [State.leave, State.set, ha₁.world_set_temp] at hback
  exact (hr₁.trans hstep).trans hback

theorem PrintSim.nil : PrintSim I program σ w [] w := by
  intro k code pc τ callers _ _ ha
  exact ⟨τ, .refl, ha⟩

/-- A value is printed before the next one is computed. -/
theorem PrintSim.cons (h : EvalSim I program σ w e (some v) w₁)
    (hs : PrintSim I program σ (w₁.print v) es w₂) : PrintSim I program σ w (e :: es) w₂ := by
  intro k code pc τ callers ht hcode ha
  obtain ⟨hte, htes⟩ := List.forall_mem_cons.mp ht
  simp only [lowerPrints, List.append_assoc] at hcode ⊢
  obtain ⟨τ₁, hr₁, hk₁, hv₁⟩ := h k code pc τ callers hte hcode.left ha
  have hprint : Reaches I program (.active ⟨code, pc + (e.lower k).code.length, τ₁⟩ callers w₁)
      (.active ⟨code, pc + (e.lower k).code.length + 1, τ₁⟩ callers (w₁.print v)) := by
    refine .single ?_
    rw [step_active hcode.right.head]
    simp [execute, hv₁, Frame.next]
  obtain ⟨τ₂, hr₂, ha₂⟩ := hs (e.lower k).temps code _ τ₁ callers htes hcode.right.right
    (hk₁.agree ha)
  refine ⟨τ₂, ?_, ha₂⟩
  simp only [List.length_append, ← Nat.add_assoc]
  exact (hr₁.trans hprint).trans hr₂

end Expressions

end Machine
end TinyPascal
