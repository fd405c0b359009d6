import TinyPascal.Proofs.Code.Generator
import TinyPascal.Proofs.Typing.Core

/-!
# `Proofs.Parentheses` — parentheses and places do not matter

Checking and lowering a tree do what they do on its core, the tree without places and parentheses: an
expression in parentheses has the type and the code of what is inside, and takes no temporary of its own.
So **trees with one core are accepted together, are refused for the same reason, and have the same
code**, however they are parenthesised and wherever their parts stood.

## Contents
- **Lowering.** `lower_core` for expressions, `lower_core_stmt` for statements, `codeWith_core` for
  programs.
- **Trees with one core.** `codeWith_of_core`, `emitWith_of_core`, `core_decides_compilation`.
-/

namespace TinyPascal

/-! ## Lowering -/

mutual

/-- **Expressions have the code of their cores**: parentheses take no temporary. -/
theorem lower_core : ∀ (e : Expr) (k : Nat), e.core.lower k = e.lower k
  | .int _ _, _ | .bool _ _, _ | .var _ _, _ => rfl
  | .paren inner _, k => lower_core inner k
  | .not operand _, k => by
      rw [Expr.core, Expr.lower, Expr.lower, lower_core operand]
  | .binary op left right _, k => by
      rw [Expr.core, Expr.lower, Expr.lower, lower_core left, lower_core right]
  | .call callee args _, k => by
      rw [Expr.core, Expr.lower, Expr.lower, lowerArgs_core args]
      rfl

/-- The core of arguments lowers to the code of the arguments. -/
theorem lowerArgs_core : ∀ (es : List Expr) (k : Nat), lowerArgs (coreArgs es) k = lowerArgs es k
  | [], _ => rfl
  | e :: es, k => by
      rw [coreArgs, lowerArgs, lowerArgs, lower_core e, lowerArgs_core es]

end

theorem lowerPrints_core (es : List Expr) (k : Nat) : lowerPrints (coreArgs es) k = lowerPrints es k := by
  induction es generalizing k with
  | nil => rfl
  | cons e es ih => rw [coreArgs, lowerPrints, lowerPrints, lower_core, ih]

theorem lowerCall_core (callee : Ident) (args : List Expr) (k : Nat) :
    lowerCall callee.bare (coreArgs args) k = lowerCall callee args k := by
  unfold lowerCall
  rw [lowerArgs_core]
  rfl

/-- A stray jump without its place. -/
def StrayJump.bare (e : StrayJump) : StrayJump :=
  ⟨e.jump, {}⟩

/-- The second step is the first one without the places; the supply of names knows none. -/
abbrev Gen.Unplaced {α : Type} (x y : Gen α) : Prop :=
  Simulates StrayJump.bare id x y

namespace Gen.Unplaced

theorem temps {α : Type} {f f' : Nat → Lowered α} (h : ∀ k, f' k = f k) :
    Gen.Unplaced (Gen.temps f) (Gen.temps f') := by
  obtain rfl : f' = f := funext h
  exact fun _ => rfl

theorem label (stem : String) : Gen.Unplaced (Gen.label stem) (Gen.label stem) :=
  fun _ => rfl

theorem discard_label (stem : String) :
    Gen.Unplaced (discard (Gen.label stem)) (discard (Gen.label stem)) :=
  fun _ => rfl

end Gen.Unplaced

mutual

/-- **Statements are lowered as their cores are**, inside the same loop. -/
theorem lower_core_stmt : ∀ (s : Stmt) (loop : Option Loop),
    Gen.Unplaced (s.lower loop) (s.core.lower loop)
  | .assign target value _, _ => by
      rw [Stmt.core, Stmt.lower, Stmt.lower]
      exact (Gen.Unplaced.temps (lower_core value)).bind fun _ => .pure _
  | .call callee args _, _ => by
      rw [Stmt.core, Stmt.lower, Stmt.lower]
      exact (Gen.Unplaced.temps (lowerCall_core callee args)).bind fun _ => .pure _
  | .return none _, _ => .pure _
  | .return (some value) _, _ =>
      (Gen.Unplaced.temps (lower_core value)).bind fun _ => .pure _
  | .ifThen cond yes _, loop => by
      rw [Stmt.core, Stmt.lower, Stmt.lower]
      refine (Gen.Unplaced.temps (lower_core cond)).bind fun c => ?_
      refine (Gen.Unplaced.discard_label _).bind fun _ => ?_
      refine (Gen.Unplaced.label _).bind fun stop => ?_
      exact (lower_core_block yes loop).bind fun _ => .pure _
  | .ifElse cond yes no _, loop => by
      rw [Stmt.core, Stmt.lower, Stmt.lower]
      refine (Gen.Unplaced.temps (lower_core cond)).bind fun c => ?_
      refine (Gen.Unplaced.label _).bind fun first => ?_
      refine (Gen.Unplaced.label _).bind fun second => ?_
      refine (Gen.Unplaced.label _).bind fun stop => ?_
      exact (lower_core_block yes loop).bind fun _ =>
        (lower_core_block no loop).bind fun _ => .pure _
  | .while cond body _, _ => by
      rw [Stmt.core, Stmt.lower, Stmt.lower]
      refine (Gen.Unplaced.label _).bind fun start => ?_
      refine (Gen.Unplaced.label _).bind fun stop => ?_
      refine (Gen.Unplaced.temps (lower_core cond)).bind fun c => ?_
      exact (lower_core_block body (some ⟨start, stop⟩)).bind fun _ => .pure _
  | .break _, none | .continue _, none => .throw _
  | .break _, some _ | .continue _, some _ => .pure _
  | .write args _, _ => by
      rw [Stmt.core, Stmt.lower, Stmt.lower]
      exact (Gen.Unplaced.temps (lowerPrints_core args)).bind fun _ => .pure _

/-- The core of a block lowers to its code, or to the same stray jump at another place. -/
theorem lower_core_block : ∀ (b : Block) (loop : Option Loop),
    Gen.Unplaced (b.lower loop) (b.core.lower loop)
  | ⟨statements, _⟩, loop => lowerAll_core statements loop

theorem lowerAll_core : ∀ (ss : List Stmt) (loop : Option Loop),
    Gen.Unplaced (lowerAll loop ss) (lowerAll loop (coreStmts ss))
  | [], _ => .pure _
  | s :: more, loop => by
      rw [coreStmts, lowerAll, lowerAll]
      exact (lower_core_stmt s loop).bind fun _ => (lowerAll_core more loop).bind fun _ => .pure _

end

theorem lower_core_routine (r : Routine) : Gen.Unplaced r.lower r.core.lower := by
  have hparams : (Param.flatten (r.params.map Param.bare)).map (fun p => (p.1.name, p.2)) =
      (Param.flatten r.params).map (fun p => (p.1.name, p.2)) := by
    rw [flatten_bare, List.map_map]
    rfl
  unfold Routine.lower
  show Gen.Unplaced _ (r.body.core.lower none >>= fun body =>
    pure ([.sectionStart r.sectionKind (some r.name.name)
      ((Param.flatten (r.params.map Param.bare)).map (fun p => (p.1.name, p.2))) r.result] ++ body
        ++ [.sectionEnd r.sectionKind (some r.name.name)]))
  rw [hparams]
  exact (lower_core_block r.body none).bind fun _ => .pure _

theorem lowerDecls_core (ds : List Decl) :
    Gen.Unplaced (lowerDecls ds) (lowerDecls (ds.map Decl.core)) := by
  induction ds with
  | nil => exact .pure _
  | cons d ds ih =>
      cases d with
      | vars decl =>
          have hnames : (decl.names.map Ident.bare).map Ident.name = decl.names.map Ident.name := by
            rw [List.map_map]
            rfl
          show Gen.Unplaced _ (lowerDecls (ds.map Decl.core) >>= fun b =>
            pure (.decl ((decl.names.map Ident.bare).map Ident.name) decl.ty :: b))
          rw [hnames]
          exact ih.bind fun _ => .pure _
      | routine r => exact (lower_core_routine r).bind fun _ => ih.bind fun _ => .pure _

/-- **A program has the code of its core**, with any supply of names, or fails as its core does. -/
theorem codeWith_core (p : Program) (s : Supply) :
    p.core.codeWith s = (((p.codeWith s).1.map id).mapError StrayJump.bare, (p.codeWith s).2) := by
  have hlower : Gen.Unplaced p.lower p.core.lower :=
    (lowerDecls_core p.declarations).bind fun _ =>
      (lower_core_block p.main none).bind fun _ => .pure _
  have hrun : p.core.lower s = seenThrough StrayJump.bare id (p.lower s) := hlower s
  unfold Program.codeWith
  rw [hrun]
  cases p.lower s <;> rfl

/-! ## Trees with one core -/

/-- Two trees with one core have the same code behind the same names and take the same names, or fail at the
    same kind of stray jump. -/
theorem codeWith_of_core {p q : Program} (h : p.core = q.core) (s : Supply) :
    (p.codeWith s).2 = (q.codeWith s).2 ∧
    ((∃ code, (p.codeWith s).1 = .ok code ∧ (q.codeWith s).1 = .ok code) ∨
      ∃ jump span span', (p.codeWith s).1 = .error ⟨jump, span⟩ ∧
        (q.codeWith s).1 = .error ⟨jump, span'⟩) := by
  have hpair : (((p.codeWith s).1.map id).mapError StrayJump.bare, (p.codeWith s).2) =
      (((q.codeWith s).1.map id).mapError StrayJump.bare, (q.codeWith s).2) := by
    rw [← codeWith_core, ← codeWith_core, h]
  obtain ⟨hcode, hsupply⟩ := Prod.mk.inj hpair
  refine ⟨hsupply, ?_⟩
  rcases Except.cases_of_mapError_eq hcode with ⟨code, code', hp, hq, rfl⟩ | ⟨e, e', hp, hq, he⟩
  · exact .inl ⟨code, hp, hq⟩
  · obtain ⟨jump, span⟩ := e
    obtain ⟨jump', span'⟩ := e'
    obtain rfl : jump = jump' := congrArg StrayJump.jump he
    exact .inr ⟨jump, span, span', hp, hq⟩

/-- A generator does the same with two trees with one core, but for the place of a stray jump. -/
theorem emitWith_of_core {p q : Program} (h : p.core = q.core) {g : Generator} (hg : g.loops = []) :
    (∃ code g', p.emitWith g = (.ok code, g') ∧ q.emitWith g = (.ok code, g')) ∨
    (∃ jump span span' g', p.emitWith g = (.error (.stray ⟨jump, span⟩), g') ∧
      q.emitWith g = (.error (.stray ⟨jump, span'⟩), g')) ∨
    ((p.emitWith g).1 = .error .overflow ∧ (q.emitWith g).1 = .error .overflow) := by
  obtain ⟨hsupply, hcodes⟩ := codeWith_of_core h g.supply
  rcases emitWith_cases p hg with ⟨code, g', hemit, hcode, hloops⟩ | ⟨⟨jump, span⟩, g', hemit, hcode, hloops⟩ |
    ⟨g', hemit, hfull⟩
  · rw [hcode] at hsupply hcodes
    rcases hcodes with ⟨code', hp, hq⟩ | ⟨_, _, _, hp, _⟩
    · cases hp
      exact .inl ⟨code, g', hemit, (emitWith_eq_ok_iff q hg).mpr ⟨Prod.ext hq hsupply.symm, hloops⟩⟩
    · cases hp
  · rw [hcode] at hsupply hcodes
    rcases hcodes with ⟨_, hp, _⟩ | ⟨_, _, span', hp, hq⟩
    · cases hp
    · cases hp
      exact .inr (.inl ⟨jump, span, span', g', hemit,
        (emitWith_eq_stray_iff q hg).mpr ⟨Prod.ext hq hsupply.symm, hloops⟩⟩)
  · have hfull' : ¬ (q.codeWith g.supply).2.Fits := by rwa [← hsupply]
    exact .inr (.inr ⟨congrArg Prod.fst hemit, (emitWith_eq_overflow_iff q hg).mpr hfull'⟩)

/-- **Parentheses and places do not matter.** Of two trees with one core, both are accepted or none is. If
    they are, their tables differ in places only; if they are not, the violations are the same, but for
    their places. Both have the same code, or both have none because of the same kind of stray jump. So it
    is with a generator that counts with 32 bits, whatever it was asked before: its counts get full on both
    trees or on none. -/
theorem core_decides_compilation (p q : Program) (h : p.core = q.core) :
    ((∃ t, p.check = .ok t) ↔ ∃ t, q.check = .ok t) ∧
    (∀ t t', p.check = .ok t → q.check = .ok t' → t.bare = t'.bare) ∧
    (∀ e e', p.check = .error e → q.check = .error e' → e.violation = e'.violation) ∧
    ((∃ code, p.code = .ok code ∧ q.code = .ok code) ∨
      ∃ jump span span', p.code = .error ⟨jump, span⟩ ∧ q.code = .error ⟨jump, span'⟩) ∧
    ∀ g : Generator, g.loops = [] →
      (∃ code g', p.emitWith g = (.ok code, g') ∧ q.emitWith g = (.ok code, g')) ∨
      (∃ jump span span' g', p.emitWith g = (.error (.stray ⟨jump, span⟩), g') ∧
        q.emitWith g = (.error (.stray ⟨jump, span'⟩), g')) ∨
      ((p.emitWith g).1 = .error .overflow ∧ (q.emitWith g).1 = .error .overflow) := by
  have hcheck : (p.check.map Table.bare).mapError SemanticError.bare =
      (q.check.map Table.bare).mapError SemanticError.bare := by
    rw [← check_core, ← check_core, h]
  have hcodes := (codeWith_of_core h {}).2
  have hgenerator := fun (g : Generator) (hg : g.loops = []) => emitWith_of_core h hg
  rcases Except.cases_of_mapError_eq hcheck with ⟨t, t', hp, hq, ht⟩ | ⟨e, e', hp, hq, he⟩
  · refine ⟨⟨fun _ => ⟨t', hq⟩, fun _ => ⟨t, hp⟩⟩, ?_, ?_, hcodes, hgenerator⟩
    · intro u u' hu hu'
      cases hp.symm.trans hu
      cases hq.symm.trans hu'
      exact ht
    · intro e e' hu _
      cases hp.symm.trans hu
  · refine ⟨⟨?_, ?_⟩, ?_, ?_, hcodes, hgenerator⟩
    · rintro ⟨t, ht⟩
      cases hp.symm.trans ht
    · rintro ⟨t, ht⟩
      cases hq.symm.trans ht
    · intro t t' ht _
      cases hp.symm.trans ht
    · intro u u' hu hu'
      cases hp.symm.trans hu
      cases hq.symm.trans hu'
      have hviolation : e.bare.violation = e'.bare.violation := congrArg SemanticError.violation he
      exact hviolation

/-- A loop whose condition, argument and operands, and a function whose value, are wrapped. -/
def stepping (wrap : Expr → Expr) (here : Span) : Program :=
  let id (x : String) : Ident := ⟨x, here⟩
  let var (x : String) : Expr := wrap (.var x here)
  let int (n : Int) : Expr := wrap (.int n here)
  let next : Routine := ⟨id "next", [⟨[id "n"], .integer, here⟩], some .integer,
    ⟨[.return (some (wrap (.binary .add (var "n") (int 1) here))) here], here⟩, here⟩
  let step : Stmt := .assign (id "x") (wrap (.call (id "next") [var "x"] here)) here
  ⟨[.vars ⟨[id "x"], .integer, here⟩, .routine next],
    ⟨[.while (wrap (.not (wrap (.binary .ge (var "x") (int 3) here)) here)) ⟨[step], here⟩ here,
      .write [var "x"] here], here⟩, here⟩

/-- With two pairs of parentheses around every expression, in another place, the code is the same. -/
theorem core_decides_compilation_stepping :
    let wrapped := stepping (fun e => .paren (.paren e ⟨1, 5, 2, 1⟩) ⟨0, 6, 2, 1⟩) ⟨7, 9, 3, 4⟩
    let plain := stepping id ⟨0, 0, 1, 1⟩
    wrapped.core = plain.core ∧ ∃ code, wrapped.code = .ok code ∧ plain.code = .ok code := by
  intro wrapped plain
  have hcore : wrapped.core = plain.core := rfl
  have hcode : plain.code.toOption.isSome = true := by decide +kernel
  refine ⟨hcore, ?_⟩
  rcases (core_decides_compilation wrapped plain hcore).2.2.2.1 with hsame | ⟨_, _, _, _, hstray⟩
  · exact hsame
  · rw [hstray] at hcode
    cases hcode

end TinyPascal
