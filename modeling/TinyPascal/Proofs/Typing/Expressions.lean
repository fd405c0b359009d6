import TinyPascal.Proofs.Outcome
import TinyPascal.Proofs.Scope.Marks
import TinyPascal.Proofs.Typing.Rules
import TinyPascal.Typing.Expr

/-!
# `Proofs.Typing.Expressions` — the type that is found is the one the rules give

All that the rules ask of a table is what its names stand for (`Table.roleOf`).

## Contents
- **Names.** `storageType_eq_ok` for names used as values, `signatureFor_eq_ok` for names called.
- **Expressions.** `type_eq_ok_iff`, and `checkArgs_eq_ok_iff` for the arguments of a call.
-/

namespace TinyPascal

/-! ## Names -/

section Expressions

variable {t : Table}

theorem expectType_eq_ok {context : String} {expected found : Ty} {span : Span} :
    expectType context expected found span = .ok () ↔ expected = found := by
  unfold expectType
  split <;> simp [*]

theorem resolve_eq_ok {x : String} {span : Span} {symbol : Symbol} :
    t.resolve x span = .ok symbol ↔ t.lookup? x = some symbol := by
  unfold Table.resolve
  cases t.lookup? x <;> simp

/-- The type of a name that holds a value. -/
theorem storageType_eq_ok {x : String} {span : Span} {ty : Ty} :
    t.storageType x span = .ok ty ↔ Names.Holds t.roleOf x ty := by
  unfold Table.storageType Names.Holds Table.roleOf
  rw [Except.bind_eq_ok]
  constructor
  · rintro ⟨symbol, hres, hty⟩
    rw [resolve_eq_ok.mp hres]
    unfold Symbol.storage? at hty
    cases hrole : symbol.role with
    | var ty' =>
        rw [hrole] at hty
        cases hty
        exact .inl (by rw [Option.map_some, hrole])
    | param ty' =>
        rw [hrole] at hty
        cases hty
        exact .inr (by rw [Option.map_some, hrole])
    | routine signature => rw [hrole] at hty; cases hty
  · intro h
    have hrole : ∃ symbol, t.lookup? x = some symbol ∧ symbol.storage? = some ty := by
      rcases h with h | h
      all_goals
        obtain ⟨symbol, hlook, hrole⟩ := Option.map_eq_some_iff.mp h
        exact ⟨symbol, hlook, by rw [Symbol.storage?, hrole]⟩
    obtain ⟨symbol, hlook, hty⟩ := hrole
    exact ⟨symbol, resolve_eq_ok.mpr hlook, by rw [hty]; rfl⟩

/-- The signature of a name that is called with the right number of arguments. -/
theorem signatureFor_eq_ok {callee : Ident} {count : Nat} {span : Span} {signature : Signature} :
    t.signatureFor callee count span = .ok signature ↔
      t.roleOf callee.name = some (.routine signature) ∧ signature.params.length = count := by
  unfold Table.signatureFor Table.roleOf
  rw [Except.bind_eq_ok]
  constructor
  · rintro ⟨symbol, hres, hsig⟩
    rw [resolve_eq_ok.mp hres]
    unfold Symbol.signature? at hsig
    cases hrole : symbol.role with
    | var ty => rw [hrole] at hsig; cases hsig
    | param ty => rw [hrole] at hsig; cases hsig
    | routine signature' =>
        simp only [hrole] at hsig
        split at hsig
        · next hlen =>
            cases hsig
            exact ⟨by rw [Option.map_some, hrole], hlen⟩
        · cases hsig
  · rintro ⟨h, hlen⟩
    obtain ⟨symbol, hlook, hrole⟩ := Option.map_eq_some_iff.mp h
    refine ⟨symbol, resolve_eq_ok.mpr hlook, ?_⟩
    rw [show symbol.signature? = some signature by rw [Symbol.signature?, hrole]]
    exact if_pos hlen

/-! ## Operators -/

/-- An operand of the type that is asked for. -/
theorem expectOne_eq_ok {context : String} {a a' result ty : Ty} {span : Span} :
    (do expectType context a a' span; return result : Except SemanticError Ty) = .ok ty ↔
      a = a' ∧ ty = result := by
  rw [Except.bind_pure_eq_ok]
  exact ⟨fun ⟨_, ha, h⟩ => ⟨expectType_eq_ok.mp ha, h⟩,
    fun ⟨ha, h⟩ => ⟨(), expectType_eq_ok.mpr ha, h⟩⟩

/-- Two operands of the types that are asked for. -/
theorem expectBoth_eq_ok {context : String} {a b a' b' result ty : Ty} {span span' : Span} :
    (do expectType context a a' span; expectType context b b' span'; return result
      : Except SemanticError Ty) = .ok ty ↔ a = a' ∧ b = b' ∧ ty = result := by
  rw [Except.bind_eq_ok]
  constructor
  · rintro ⟨_, ha, h⟩
    exact ⟨expectType_eq_ok.mp ha, expectOne_eq_ok.mp h⟩
  · rintro ⟨ha, h⟩
    exact ⟨(), expectType_eq_ok.mpr ha, expectOne_eq_ok.mpr h⟩

/-- The three kinds of operators. -/
theorem resultType_eq_ok {op : BinOp} {left right ty : Ty} {leftSpan rightSpan : Span} :
    op.resultType left right leftSpan rightSpan = .ok ty ↔
      (op ∈ [BinOp.add, .sub, .mul, .div] ∧ left = .integer ∧ right = .integer ∧ ty = .integer) ∨
      (op ∈ [BinOp.and, .or] ∧ left = .boolean ∧ right = .boolean ∧ ty = .boolean) ∨
      (op ∈ [BinOp.eq, .neq, .lt, .le, .gt, .ge] ∧ left = right ∧ ty = .boolean) := by
  obtain ⟨harith, hlogic, hrel, hboth⟩ := op.kinds
  rw [harith, hlogic, hrel]
  unfold BinOp.resultType
  by_cases ha : op.isArithmetic = true
  · have hl : op.isLogical = false := by simpa [ha] using hboth
    rw [if_pos ha, expectBoth_eq_ok]
    simp [ha, hl, eq_comm]
  · by_cases hl : op.isLogical = true
    · rw [if_neg ha, if_pos hl, expectBoth_eq_ok]
      simp [ha, hl, eq_comm]
    · rw [if_neg ha, if_neg hl, expectOne_eq_ok]
      simp [ha, hl]

/-- The rules of operators in one: both operands have types, and the operator takes these. -/
theorem hasType_binary_iff {Γ : Names} {op : BinOp} {left right : Expr} {span : Span} {ty : Ty}
    (leftSpan rightSpan : Span) :
    HasType Γ (.binary op left right span) ty ↔ ∃ l r, HasType Γ left l ∧ HasType Γ right r ∧
      op.resultType l r leftSpan rightSpan = .ok ty := by
  constructor
  · intro h
    cases h with
    | arithmetic hop hl hr =>
        exact ⟨_, _, hl, hr, resultType_eq_ok.mpr (.inl ⟨hop, rfl, rfl, rfl⟩)⟩
    | logical hop hl hr =>
        exact ⟨_, _, hl, hr, resultType_eq_ok.mpr (.inr (.inl ⟨hop, rfl, rfl, rfl⟩))⟩
    | relational hop hl hr =>
        exact ⟨_, _, hl, hr, resultType_eq_ok.mpr (.inr (.inr ⟨hop, rfl, rfl⟩))⟩
  · rintro ⟨l, r, hl, hr, h⟩
    rcases resultType_eq_ok.mp h with ⟨hop, rfl, rfl, rfl⟩ | ⟨hop, rfl, rfl, rfl⟩ | ⟨hop, rfl, rfl⟩
    · exact .arithmetic hop hl hr
    · exact .logical hop hl hr
    · exact .relational hop hl hr

/-! ## Expressions -/

mutual

/-- **The type that is found is the one the rules give.** -/
theorem type_eq_ok_iff : ∀ (e : Expr) {ty : Ty}, e.type t = .ok ty ↔ HasType t.roleOf e ty
  | .int n span, ty => by
      unfold Expr.type
      exact ⟨fun h => by cases h; exact .int, fun h => by cases h; rfl⟩
  | .bool b span, ty => by
      unfold Expr.type
      exact ⟨fun h => by cases h; exact .bool, fun h => by cases h; rfl⟩
  | .var x span, ty => by
      unfold Expr.type
      rw [storageType_eq_ok]
      exact ⟨.var, fun h => by cases h with | var h => exact h⟩
  | .paren e span, ty => by
      unfold Expr.type
      rw [type_eq_ok_iff e]
      exact ⟨.paren, fun h => by cases h with | paren h => exact h⟩
  | .not e span, ty => by
      unfold Expr.type
      rw [Except.bind_eq_ok]
      constructor
      · rintro ⟨ty', he, h⟩
        obtain ⟨_, hexp, h⟩ := Except.bind_eq_ok.mp h
        cases expectType_eq_ok.mp hexp
        cases h
        exact .not ((type_eq_ok_iff e).mp he)
      · intro h
        cases h with
        | not h => exact ⟨.boolean, (type_eq_ok_iff e).mpr h, rfl⟩
  | .binary op left right span, ty => by
      unfold Expr.type
      rw [Except.bind_eq_ok, hasType_binary_iff left.span right.span]
      constructor
      · rintro ⟨l, hl, h⟩
        obtain ⟨r, hr, h⟩ := Except.bind_eq_ok.mp h
        exact ⟨l, r, (type_eq_ok_iff left).mp hl, (type_eq_ok_iff right).mp hr, h⟩
      · rintro ⟨l, r, hl, hr, h⟩
        exact ⟨l, (type_eq_ok_iff left).mpr hl,
          Except.bind_eq_ok.mpr ⟨r, (type_eq_ok_iff right).mpr hr, h⟩⟩
  | .call callee args span, ty => by
      unfold Expr.type
      rw [Except.bind_eq_ok]
      constructor
      · rintro ⟨signature, hsig, h⟩
        obtain ⟨hrole, hlen⟩ := signatureFor_eq_ok.mp hsig
        obtain ⟨_, hargs, h⟩ := Except.bind_eq_ok.mp h
        obtain ⟨params, result⟩ := signature
        -- a procedure has no result, so its call has no type
        cases result with
        | none => cases h
        | some ty' =>
            cases h
            exact .call hrole ((checkArgs_eq_ok_iff args hlen).mp hargs)
      · intro h
        cases h with
        | @call _ _ _ params _ hrole hargs =>
            have hlen := hargs.length_eq
            exact ⟨_, signatureFor_eq_ok.mpr ⟨hrole, hlen⟩, Except.bind_eq_ok.mpr
              ⟨(), (checkArgs_eq_ok_iff args hlen).mpr hargs, rfl⟩⟩

/-- Checking stops at the shorter of the two lists, so their lengths are compared before. -/
theorem checkArgs_eq_ok_iff : ∀ (args : List Expr) {callee : String} {number : Nat}
    {params : List Ty}, params.length = args.length →
    (checkArgs t callee number params args = .ok () ↔ HaveTypes t.roleOf args params)
  | [], callee, number, params, hlen => by
      cases List.length_eq_zero_iff.mp hlen
      unfold checkArgs
      exact ⟨fun _ => .nil, fun _ => rfl⟩
  | arg :: args, callee, number, [], hlen => by cases hlen
  | arg :: args, callee, number, param :: params, hlen => by
      unfold checkArgs
      rw [Except.bind_eq_ok]
      have ih : checkArgs t callee (number + 1) params args = .ok () ↔
          HaveTypes t.roleOf args params := checkArgs_eq_ok_iff args (Nat.succ.inj hlen)
      constructor
      · rintro ⟨found, harg, h⟩
        obtain ⟨_, hexp, hmore⟩ := Except.bind_eq_ok.mp h
        cases expectType_eq_ok.mp hexp
        exact .cons ((type_eq_ok_iff arg).mp harg) (ih.mp hmore)
      · intro h
        cases h with
        | cons harg hmore =>
            exact ⟨param, (type_eq_ok_iff arg).mpr harg, Except.bind_eq_ok.mpr
              ⟨(), expectType_eq_ok.mpr rfl, ih.mpr hmore⟩⟩

end

end Expressions

end TinyPascal
