import TinyPascal.Proofs.Code.Temporaries
import TinyPascal.Proofs.Typing.Rules

/-!
# `Proofs.Code.TypedCode` — lowering keeps types

Places have no declared types of their own: a name is a parameter of its section, or a global variable,
or a temporary, and a temporary has the type of the value that is computed into it. This module states
the rules that code has to keep under this reading, and shows that **statements which keep the rules of
the language are lowered to code that keeps the rules of places**.

## Contents
- **Types of places.** `placeTy?`: the type of a place, behind the instructions that were already run
  through.
- **Rules of code.** `InstrOk` for one instruction, `PartOk` for instructions in a row.
- **Lowering.** `Sees`: a section sees the names of the environment that its block was checked in.
  `valueOk_lower` for expressions, `partOk_lower` for statements.
-/

namespace TinyPascal

/-! ## Types of places -/

def Literal.ty : Literal → Ty
  | .int _ => .integer
  | .bool _ => .boolean

namespace BinOp

/-- The type of the value that an operator computes. -/
def resultTy (op : BinOp) : Ty :=
  if op.isArithmetic then .integer else .boolean

/-- Both operands of the operator may have the type. -/
def Takes (op : BinOp) (ty : Ty) : Prop :=
  (op.isArithmetic = true → ty = .integer) ∧ (op.isLogical = true → ty = .boolean)

end BinOp

/-- The global variables that an instruction declares. -/
def Instr.globals : Instr → List (String × Ty)
  | .decl names ty => names.map (fun name => (name, ty))
  | _ => []

/-- The global variables that code declares, with their types. -/
def globalsOf (code : List Instr) : List (String × Ty) :=
  code.flatMap Instr.globals

/-- The sections with the given name. -/
def sectionsNamed (code : List Instr) (name : String) : List CodeSection :=
  (sectionsOf code).filter (fun sec => sec.name == some name)

section Types

variable (code : List Instr) (sec : CodeSection)

/-- The type of the value that an instruction leaves in its temporary. A call leaves the result of the
    section that it names; a procedure has none. -/
def resultTy? : Instr → Option Ty
  | .const _ value => some value.ty
  | .binary op _ _ _ => some op.resultTy
  | .not _ _ => some .boolean
  | .call _ callee _ => (sectionsNamed code callee).head?.bind CodeSection.result
  | _ => none

/-- The type of a variable in a section: parameters hide global variables. -/
def variableTy? (x : Place) : Option Ty :=
  (sec.params.lookup x).or ((globalsOf code).lookup x)

/-- **The type of a place** in a section, behind the instructions `before` of that section: of a variable,
    or of the temporary that one of these instructions sets. -/
def placeTy? (before : List Instr) (x : Place) : Option Ty :=
  (variableTy? code sec x).or
    ((before.find? (fun i => i.temp? == some x)).bind (resultTy? code))

/-! ## Rules of code -/

/-- **The rules of an instruction** of a section, where `τ` gives the types of places. -/
def InstrOk (τ : Place → Option Ty) : Instr → Prop
  | .assign target arg => ∃ ty, τ target = some ty ∧ τ arg = some ty
  | .binary op _ left right => ∃ ty, τ left = some ty ∧ τ right = some ty ∧ op.Takes ty
  | .not _ arg => τ arg = some .boolean
  | .call _ callee args => ∃ routine, sectionsNamed code callee = [routine] ∧
      args.map τ = routine.params.map (fun param => some param.2)
  | .print arg => ∃ ty, τ arg = some ty
  | .ret none => sec.kind = .procedure
  | .ret (some arg) => sec.kind = .function ∧ ∃ ty, sec.result = some ty ∧ τ arg = some ty
  | .ifGoto cond _ | .ifNotGoto cond _ => τ cond = some .boolean
  | .const _ _ | .label _ | .goto _ => True
  -- these do not stand in a section
  | .decl _ _ | .sectionStart _ _ _ _ | .sectionEnd _ _ => False

/-- The instructions `part`, in a row behind `before`, keep the rules. -/
def PartOk (before : List Instr) : List Instr → Prop
  | [] => True
  | i :: rest => InstrOk code sec (placeTy? code sec before) i ∧ PartOk (before ++ [i]) rest

/-- Code that keeps the rules, and leaves a value of the given type. -/
structure ValueOk (before : List Instr) (a : Lowered Place) (ty : Ty) : Prop where
  part : PartOk code sec before a.code
  result : placeTy? code sec (before ++ a.code) a.result = some ty

end Types

section Rules

variable {code : List Instr} {sec : CodeSection} {before a b : List Instr} {i : Instr} {x : Place}
  {ty : Ty}

/-- **An instruction that keeps the rules reads typed places only.** -/
theorem InstrOk.reads {τ : Place → Option Ty} (h : InstrOk code sec τ i) :
    ∀ x ∈ i.reads, ∃ ty, τ x = some ty := by
  intro x hx
  cases i with
  | assign target arg =>
      obtain ⟨ty, _, harg⟩ := h
      rw [List.mem_singleton.mp hx]
      exact ⟨ty, harg⟩
  | binary op target left right =>
      obtain ⟨ty, hleft, hright, _⟩ := h
      simp only [Instr.reads, List.mem_cons, List.not_mem_nil, or_false] at hx
      rcases hx with rfl | rfl
      · exact ⟨ty, hleft⟩
      · exact ⟨ty, hright⟩
  | call target callee args =>
      obtain ⟨routine, _, hargs⟩ := h
      have hmem : τ x ∈ args.map τ := List.mem_map.mpr ⟨x, hx, rfl⟩
      rw [hargs] at hmem
      obtain ⟨param, _, hparam⟩ := List.mem_map.mp hmem
      exact ⟨param.2, hparam.symm⟩
  | not target arg =>
      rw [List.mem_singleton.mp hx]
      exact ⟨_, h⟩
  | print arg =>
      rw [List.mem_singleton.mp hx]
      exact h
  | ret arg =>
      cases arg with
      | none => cases hx
      | some arg =>
          obtain ⟨_, ty, _, harg⟩ := h
          rw [List.mem_singleton.mp hx]
          exact ⟨ty, harg⟩
  | ifGoto cond l | ifNotGoto cond l =>
      rw [List.mem_singleton.mp hx]
      exact ⟨_, h⟩
  | _ => cases hx

/-- Places keep their types behind more instructions. -/
theorem placeTy?_append (more : List Instr) (h : placeTy? code sec before x = some ty) :
    placeTy? code sec (before ++ more) x = some ty := by
  unfold placeTy? at h ⊢
  rw [List.find?_append]
  cases hvariable : variableTy? code sec x with
  | some ty' =>
      rw [hvariable] at h
      exact h
  | none =>
      rw [hvariable, Option.none_or] at h
      rw [Option.none_or]
      obtain ⟨i, hi, hty⟩ := Option.bind_eq_some_iff.mp h
      rw [hi]
      exact hty

theorem partOk_append :
    PartOk code sec before (a ++ b) ↔
      PartOk code sec before a ∧ PartOk code sec (before ++ a) b := by
  induction a generalizing before with
  | nil => simp [PartOk]
  | cons i a ih => simp [PartOk, ih, and_assoc]

theorem partOk_singleton :
    PartOk code sec before [i] ↔ InstrOk code sec (placeTy? code sec before) i := by
  simp [PartOk]

theorem PartOk.append (ha : PartOk code sec before a) (hb : PartOk code sec (before ++ a) b) :
    PartOk code sec before (a ++ b) :=
  partOk_append.mpr ⟨ha, hb⟩

/-- Each instruction of a part keeps the rules behind those in front of it. -/
theorem PartOk.instr (h : PartOk code sec before (a ++ i :: b)) :
    InstrOk code sec (placeTy? code sec (before ++ a)) i :=
  (partOk_append.mp h).2.1

end Rules

/-! ## Lowering -/

/-- No temporary behind the `k`-th one is set. -/
def TempsUpTo (k : Nat) (code : List Instr) : Prop :=
  ∀ n, k < n → tempName n ∉ tempsOf code

namespace TempsUpTo

variable {k k' n : Nat} {a b : List Instr} {i : Instr}

theorem nil : TempsUpTo k [] :=
  fun _ _ => List.not_mem_nil

theorem append (ha : TempsUpTo k a) (hb : TakesTemps n k k' b) : TempsUpTo k' (a ++ b) := by
  obtain ⟨rfl, hnames⟩ := hb
  intro j hj hmem
  rw [tempsOf_append, hnames, List.mem_append] at hmem
  rcases hmem with hmem | hmem
  · exact ha j (by omega) hmem
  · obtain ⟨m, _, hle, heq⟩ := mem_tempNames.mp hmem
    have := tempName_inj heq
    omega

theorem snoc (ha : TempsUpTo k a) (h : i.temp? = none) : TempsUpTo k (a ++ [i]) :=
  ha.append (.none (by simp [tempsOf, h]))

end TempsUpTo

/-- **What a section sees.** The names of the environment `Γ` are what the code makes of them, and the
    section is that of a routine with the result type `routine`: `none` for the main section, `some none`
    for a procedure. -/
structure Sees (code : List Instr) (sec : CodeSection) (Γ : Names) (routine : Option (Option Ty)) :
    Prop where
  holds : ∀ {x ty}, Γ.Holds x ty → variableTy? code sec x = some ty
  temps : ∀ n, variableTy? code sec (tempName n) = none
  routines : ∀ {f params result}, Γ f = some (.routine ⟨params, result⟩) →
    ∃ callee, sectionsNamed code f = [callee] ∧ callee.params.map Prod.snd = params ∧
      callee.result = result
  procedure : routine = some none → sec.kind = .procedure
  function : ∀ {ty}, routine = some (some ty) → sec.kind = .function ∧ sec.result = some ty

theorem hasType_binary {Γ : Names} {op : BinOp} {left right : Expr} {span : Span} {ty : Ty}
    (h : HasType Γ (.binary op left right span) ty) :
    ∃ operand, HasType Γ left operand ∧ HasType Γ right operand ∧ op.Takes operand ∧
      op.resultTy = ty := by
  obtain ⟨harith, hlogic, hrel, hboth⟩ := op.kinds
  cases h with
  | arithmetic hop hleft hright =>
      have ha := harith.mp hop
      have hl : op.isLogical = false := by simpa [ha] using hboth
      exact ⟨_, hleft, hright, by simp [BinOp.Takes, hl], by simp [BinOp.resultTy, ha]⟩
  | logical hop hleft hright =>
      have hl := hlogic.mp hop
      have ha : op.isArithmetic = false := by simpa [hl] using hboth
      exact ⟨_, hleft, hright, by simp [BinOp.Takes, ha], by simp [BinOp.resultTy, ha]⟩
  | relational hop hleft hright =>
      obtain ⟨ha, hl⟩ := hrel.mp hop
      exact ⟨_, hleft, hright, by simp [BinOp.Takes, ha, hl], by simp [BinOp.resultTy, ha]⟩

section Lowering

variable {code : List Instr} {sec : CodeSection} {Γ : Names} {routine : Option (Option Ty)}
  {before part : List Instr} {k : Nat} {i : Instr} {ty : Ty}

theorem Sees.placeTy (hsees : Sees code sec Γ routine) {x : Place} (h : Γ.Holds x ty) :
    placeTy? code sec before x = some ty := by
  unfold placeTy?
  rw [hsees.holds h]
  rfl

/-- A temporary has the type of the instruction that sets it, if it was not set before. -/
theorem Sees.placeTy_temp (hsees : Sees code sec Γ routine) (htemps : TempsUpTo k before)
    (hi : i.temp? = some (tempName (k + 1))) :
    placeTy? code sec (before ++ [i]) (tempName (k + 1)) = resultTy? code i := by
  have hnew : before.find? (fun j => j.temp? == some (tempName (k + 1))) = none := by
    rw [List.find?_eq_none]
    intro j hj hset
    refine htemps (k + 1) (Nat.lt_succ_self k) ?_
    exact List.mem_filterMap.mpr ⟨j, hj, eq_of_beq hset⟩
  unfold placeTy?
  rw [hsees.temps, List.find?_append, hnew]
  simp [hi]

theorem Sees.valueOk_const (hsees : Sees code sec Γ routine) (htemps : TempsUpTo k before)
    (value : Literal) :
    ValueOk code sec before ⟨[.const (tempName (k + 1)) value], tempName (k + 1), k + 1⟩ value.ty :=
  ⟨partOk_singleton.mpr trivial, hsees.placeTy_temp htemps rfl⟩

/-- **One more temporary.** The value that an instruction leaves has the type of that instruction. -/
theorem Sees.partOk_temp (hsees : Sees code sec Γ routine) (hpart : PartOk code sec before part)
    (htemps : TempsUpTo k (before ++ part)) (hi : i.temp? = some (tempName (k + 1)))
    (hok : InstrOk code sec (placeTy? code sec (before ++ part)) i) :
    PartOk code sec before (part ++ [i]) ∧
      placeTy? code sec (before ++ (part ++ [i])) (tempName (k + 1)) = resultTy? code i := by
  refine ⟨hpart.append (partOk_singleton.mpr hok), ?_⟩
  rw [← List.append_assoc]
  exact hsees.placeTy_temp htemps hi

/-- A call whose arguments have the types of the parameters. Its value has the result type of the routine,
    if that is a function. -/
theorem Sees.partOk_call (hsees : Sees code sec Γ routine) {callee : Ident} {args : List Expr}
    (span : Span) {params : List Ty} {result : Option Ty}
    (hrole : Γ callee.name = some (.routine ⟨params, result⟩)) (htemps : TempsUpTo k before)
    (hpart : PartOk code sec before (lowerArgs args k).code)
    (hargs : (lowerArgs args k).result.map (placeTy? code sec (before ++ (lowerArgs args k).code))
      = params.map some) :
    PartOk code sec before ((Expr.call callee args span).lower k).code ∧
      placeTy? code sec (before ++ ((Expr.call callee args span).lower k).code)
        ((Expr.call callee args span).lower k).result = result := by
  obtain ⟨target, hnamed, hparams, hresult⟩ := hsees.routines hrole
  have hok : InstrOk code sec (placeTy? code sec (before ++ (lowerArgs args k).code))
      (.call (tempName ((lowerArgs args k).temps + 1)) callee.name (lowerArgs args k).result) := by
    refine ⟨target, hnamed, ?_⟩
    rw [hargs, ← hparams, List.map_map]
    rfl
  have hvalue := hsees.partOk_temp hpart (htemps.append (takesTemps_lowerArgs args k)) rfl hok
  have htype : resultTy? code (.call (tempName ((lowerArgs args k).temps + 1)) callee.name
      (lowerArgs args k).result) = result := by
    rw [resultTy?, hnamed, ← hresult]
    rfl
  rw [htype] at hvalue
  simpa only [Expr.lower] using hvalue

mutual

/-- **Expressions keep their types.** The code of an expression keeps the rules, and leaves a value of the
    type of the expression. -/
theorem valueOk_lower (hsees : Sees code sec Γ routine) : ∀ (e : Expr) {ty : Ty}
    {before : List Instr} {k : Nat}, HasType Γ e ty → TempsUpTo k before →
    ValueOk code sec before (e.lower k) ty
  | .int n _, ty, before, k, h, htemps => by
      cases h
      exact hsees.valueOk_const htemps (.int n)
  | .bool b _, ty, before, k, h, htemps => by
      cases h
      exact hsees.valueOk_const htemps (.bool b)
  | .var x _, ty, before, k, h, _ => by
      cases h with
      | var hholds => exact ⟨trivial, hsees.placeTy hholds⟩
  | .paren inner _, ty, before, k, h, htemps => by
      cases h with
      | paren hinner => exact valueOk_lower hsees inner hinner htemps
  | .not operand _, ty, before, k, h, htemps => by
      cases h with
      | not hoperand =>
          have ha := valueOk_lower hsees operand hoperand htemps
          have hvalue := hsees.partOk_temp ha.part (htemps.append (takesTemps_lower operand k)) rfl
            (i := .not (tempName ((operand.lower k).temps + 1)) (operand.lower k).result) ha.result
          exact ⟨hvalue.1, hvalue.2⟩
  | .binary op left right _, ty, before, k, h, htemps => by
      obtain ⟨operand, hleft, hright, htakes, rfl⟩ := hasType_binary h
      have ha := valueOk_lower hsees left hleft htemps
      have htemps' := htemps.append (takesTemps_lower left k)
      have hb := valueOk_lower hsees right hright htemps'
      have htemps'' := htemps'.append (takesTemps_lower right (left.lower k).temps)
      rw [List.append_assoc] at htemps''
      -- the value of the left operand is still there behind the code of the right one
      have hold := placeTy?_append (right.lower (left.lower k).temps).code ha.result
      have hnew := hb.result
      rw [List.append_assoc] at hold hnew
      have hvalue := hsees.partOk_temp (ha.part.append hb.part) htemps'' rfl
        (i := .binary op (tempName ((right.lower (left.lower k).temps).temps + 1))
          (left.lower k).result (right.lower (left.lower k).temps).result)
        ⟨operand, hold, hnew, htakes⟩
      exact ⟨hvalue.1, hvalue.2⟩
  | .call callee args span, ty, before, k, h, htemps => by
      cases h with
      | call hrole hargs =>
          obtain ⟨hpart, hresults⟩ := valuesOk_lowerArgs hsees args hargs htemps
          have hvalue := hsees.partOk_call span hrole htemps hpart hresults
          exact ⟨hvalue.1, hvalue.2⟩

/-- Arguments of known types lower to well-typed code, and their places have those types behind it. -/
theorem valuesOk_lowerArgs (hsees : Sees code sec Γ routine) : ∀ (es : List Expr) {tys : List Ty}
    {before : List Instr} {k : Nat}, HaveTypes Γ es tys → TempsUpTo k before →
    PartOk code sec before (lowerArgs es k).code ∧
      (lowerArgs es k).result.map (placeTy? code sec (before ++ (lowerArgs es k).code))
        = tys.map some
  | [], tys, before, k, h, _ => by
      cases h
      exact ⟨trivial, rfl⟩
  | e :: es, tys, before, k, h, htemps => by
      cases h with
      | cons he hes =>
          have ha := valueOk_lower hsees e he htemps
          obtain ⟨hpart, hresults⟩ :=
            valuesOk_lowerArgs hsees es hes (htemps.append (takesTemps_lower e k))
          have hold := placeTy?_append (lowerArgs es (e.lower k).temps).code ha.result
          rw [List.append_assoc] at hold hresults
          refine ⟨ha.part.append hpart, ?_⟩
          simp only [lowerArgs, List.map_cons, hold, hresults]

end

/-- The code of a `writeln` is well-typed if each of its arguments has a type. -/
theorem partOk_lowerPrints (hsees : Sees code sec Γ routine) : ∀ (es : List Expr)
    {before : List Instr} {k : Nat}, (∀ e ∈ es, ∃ ty, HasType Γ e ty) → TempsUpTo k before →
    PartOk code sec before (lowerPrints es k).code
  | [], _, _, _, _ => trivial
  | e :: es, before, k, h, htemps => by
      obtain ⟨⟨ty, he⟩, hes⟩ := List.forall_mem_cons.mp h
      have ha := valueOk_lower hsees e he htemps
      have hprint : InstrOk code sec (placeTy? code sec (before ++ (e.lower k).code))
          (.print (e.lower k).result) := ⟨ty, ha.result⟩
      have htemps' := (htemps.append (takesTemps_lower e k)).snoc (i := .print (e.lower k).result) rfl
      rw [List.append_assoc] at htemps'
      exact (ha.part.append (partOk_singleton.mpr hprint)).append
        (partOk_lowerPrints hsees es hes htemps')

/-! A block keeps the rules behind any code that has used up its temporaries, so the jumps and labels of
the construct around it may stand in between. -/

section Layouts

variable {c : Lowered Place} {yes no body : List Instr} {n k' : Nat}

/-- The layout of an `if` without `else` is well-typed if its condition is a boolean and its body is
    well-typed wherever it stands. -/
theorem PartOk.ifThen {stop : Label} (hc : ValueOk code sec before c .boolean)
    (htest : TempsUpTo k (before ++ c.code))
    (hbody : ∀ {b}, TempsUpTo k b → PartOk code sec b body) :
    PartOk code sec before (Layout.ifThen c stop body) := by
  refine hc.part.append ⟨hc.result, (hbody (htest.snoc rfl)).append ?_⟩
  exact partOk_singleton.mpr trivial

/-- The layout of an `if` with `else`: the second branch is checked behind the temporaries of the first.
    -/
theorem PartOk.ifElse {first second stop : Label} (hc : ValueOk code sec before c .boolean)
    (htest : TempsUpTo k (before ++ c.code))
    (hyes : ∀ {b}, TempsUpTo k b → PartOk code sec b yes) (htakes : TakesTemps n k k' yes)
    (hno : ∀ {b}, TempsUpTo k' b → PartOk code sec b no) :
    PartOk code sec before (Layout.ifElse c first second stop yes no) := by
  have hfirst : TempsUpTo k (before ++ c.code ++ [.ifGoto c.result first] ++ [.goto second]
      ++ [.label first]) :=
    .snoc (.snoc (.snoc htest rfl) rfl) rfl
  have hsecond : TempsUpTo k' (before ++ c.code ++ [.ifGoto c.result first] ++ [.goto second]
      ++ [.label first] ++ yes ++ [.goto stop] ++ [.label second]) :=
    .snoc (.snoc (hfirst.append htakes) rfl) rfl
  refine hc.part.append ⟨hc.result, trivial, trivial, (hyes hfirst).append ⟨trivial, trivial, ?_⟩⟩
  exact (hno hsecond).append (partOk_singleton.mpr trivial)

/-- The layout of a loop is well-typed if its condition is a boolean and its body is well-typed. -/
theorem PartOk.loop {l : Loop} (hc : ValueOk code sec (before ++ [.label l.start]) c .boolean)
    (htest : TempsUpTo k (before ++ [.label l.start] ++ c.code))
    (hbody : ∀ {b}, TempsUpTo k b → PartOk code sec b body) :
    PartOk code sec before (Layout.loop c l body) := by
  refine ⟨trivial, hc.part.append ⟨hc.result, (hbody (htest.snoc rfl)).append ?_⟩⟩
  exact ⟨trivial, trivial, trivial⟩

end Layouts

mutual

/-- **Statements keep types.** The code of a statement that keeps the rules of the language keeps the rules
    of places. The induction is over the statement, behind any code that has used up its temporaries. -/
theorem partOk_lower (hsees : Sees code sec Γ routine) : ∀ (st : Stmt) {inLoop : Bool}
    {loop : Option Loop} {s s' : Supply} {before part : List Instr},
    st.lower loop s = .ok part s' → StmtOk Γ routine inLoop st → TempsUpTo s.temps before →
    PartOk code sec before part
  | .assign target value _, _, _, s, _, before, _, h, hok, htemps => by
      rw [lower_assign] at h
      cases h
      obtain ⟨ty, htarget, hvalue⟩ := stmtOk_assign.mp hok
      have ha := valueOk_lower hsees value hvalue htemps
      exact ha.part.append (partOk_singleton.mpr ⟨ty, hsees.placeTy htarget, ha.result⟩)
  | .call callee args span, _, _, s, _, before, _, h, hok, htemps => by
      rw [lower_call] at h
      cases h
      obtain ⟨params, result, hrole, hargs⟩ := stmtOk_call.mp hok
      obtain ⟨hpart, hresults⟩ := valuesOk_lowerArgs hsees args hargs htemps
      exact (hsees.partOk_call span hrole htemps hpart hresults).1
  | .return none _, _, _, s, _, before, _, h, hok, _ => by
      rw [lower_return_none] at h
      cases h
      exact partOk_singleton.mpr (hsees.procedure (stmtOk_return_none.mp hok))
  | .return (some value) _, _, _, s, _, before, _, h, hok, htemps => by
      rw [lower_return_some] at h
      cases h
      obtain ⟨ty, hroutine, hvalue⟩ := stmtOk_return_some.mp hok
      have ha := valueOk_lower hsees value hvalue htemps
      obtain ⟨hkind, hresult⟩ := hsees.function hroutine
      exact ha.part.append (partOk_singleton.mpr ⟨hkind, ty, hresult, ha.result⟩)
  | .ifThen cond yes _, _, _, s, _, before, _, h, hok, htemps => by
      obtain ⟨body, hb, rfl⟩ := lower_ifThen_eq_ok h
      obtain ⟨hcond, hyes⟩ := stmtOk_ifThen.mp hok
      exact .ifThen (valueOk_lower hsees cond hcond htemps)
        (htemps.append (takesTemps_lower cond s.temps)) (partOk_lower_block hsees yes hb hyes)
  | .ifElse cond yes no _, _, _, s, _, before, _, h, hok, htemps => by
      obtain ⟨a, s₁, b, ha, hb, rfl⟩ := lower_ifElse_eq_ok h
      obtain ⟨hcond, hyes, hno⟩ := stmtOk_ifElse.mp hok
      exact .ifElse (valueOk_lower hsees cond hcond htemps)
        (htemps.append (takesTemps_lower cond s.temps)) (partOk_lower_block hsees yes ha hyes)
        (takesTemps_lower_block yes ha) (partOk_lower_block hsees no hb hno)
  | .while cond body _, _, _, s, _, before, _, h, hok, htemps => by
      obtain ⟨a, ha, rfl⟩ := lower_while_eq_ok h
      obtain ⟨hcond, hbody⟩ := stmtOk_while.mp hok
      have hstart := htemps.snoc (i := .label (Loop.fresh s.labels).start) rfl
      exact .loop (valueOk_lower hsees cond hcond hstart)
        (hstart.append (takesTemps_lower cond s.temps)) (partOk_lower_block hsees body ha hbody)
  | .break _, _, none, s, _, before, _, h, _, _ => by cases h
  | .break _, _, some l, s, _, before, _, h, _, _ => by
      cases h
      exact partOk_singleton.mpr trivial
  | .continue _, _, none, s, _, before, _, h, _, _ => by cases h
  | .continue _, _, some l, s, _, before, _, h, _, _ => by
      cases h
      exact partOk_singleton.mpr trivial
  | .write args _, _, _, s, _, before, _, h, hok, htemps => by
      rw [lower_write] at h
      cases h
      exact partOk_lowerPrints hsees args (stmtOk_write.mp hok) htemps

/-- A well-typed block lowers to well-typed code. -/
theorem partOk_lower_block (hsees : Sees code sec Γ routine) : ∀ (b : Block) {inLoop : Bool}
    {loop : Option Loop} {s s' : Supply} {before part : List Instr},
    b.lower loop s = .ok part s' → StmtsOk Γ routine inLoop b.statements →
    TempsUpTo s.temps before → PartOk code sec before part
  | ⟨statements, _⟩, _, _, _, _, _, _, h, hok, htemps =>
      partOk_lowerAll hsees statements h hok htemps

/-- Well-typed statements lower to well-typed code. -/
theorem partOk_lowerAll (hsees : Sees code sec Γ routine) : ∀ (ss : List Stmt) {inLoop : Bool}
    {loop : Option Loop} {s s' : Supply} {before part : List Instr},
    lowerAll loop ss s = .ok part s' → StmtsOk Γ routine inLoop ss → TempsUpTo s.temps before →
    PartOk code sec before part
  | [], _, _, _, _, _, _, h, _, _ => by
      cases h
      trivial
  | first :: more, _, _, _, _, _, _, h, hok, htemps => by
      obtain ⟨a, s₁, b, ha, hb, rfl⟩ := lowerAll_cons_eq_ok h
      obtain ⟨hfirst, hmore⟩ := stmtsOk_cons.mp hok
      have htemps' := htemps.append (takesTemps_lower_stmt first ha)
      exact (partOk_lower hsees first ha hfirst htemps).append
        (partOk_lowerAll hsees more hb hmore htemps')

end

end Lowering

end TinyPascal
