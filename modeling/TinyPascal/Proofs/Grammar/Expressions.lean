import TinyPascal.Proofs.Grammar.Reading
import TinyPascal.Proofs.Grammar.Rules

/-!
# `Proofs.Grammar.Expressions` — expressions are read as the grammar says

A parser for a right-hand side is **sound** if what it takes is derived from it, and **complete** if it
takes whatever is derived from it, as long as the token behind does not go on with it. The value that a
complete parser gives is fixed before the tokens behind are known.

## Contents
- **Sound and complete.** `Sound`, `Complete`, both up to a number of tokens, for the recursion.
- **Operators.** `spells_mulOp`, `spells_addOp`, `spells_relOp`.
- **The tiers.** From factors up to lists of expressions; each goes on behind fewer tokens than the next.
- **All expressions.** `sound_exprs`, `complete_exprs`, by induction on the number of tokens.
-/

namespace TinyPascal
namespace Grammar

open TinyPascal.Parser

/-! ## Sound and complete -/

section Definitions

variable {α : Type} {bound : List Token → Nat}

/-- What the parser takes from at most `n` tokens is derived from `r`. -/
def Sound (n : Nat) (f : (ts : List Token) → Outcome α (bound ts)) (r : Rhs) : Prop :=
  ∀ ⦃ts v rest⦄, ts.length ≤ n → Reads (f ts) v rest → ∃ pre, ts = pre ++ rest ∧ Spells r pre

/-- At most `n` tokens that are derived from `r` are taken by the parser, unless the next token goes on
    with them. -/
def Complete (n : Nat) (f : (ts : List Token) → Outcome α (bound ts)) (r : Rhs)
    (goesOn : Token.Kind → Bool) : Prop :=
  ∀ ⦃pre⦄, pre.length ≤ n → Spells r pre →
    ∃ v, ∀ rest, Stops goesOn rest → Reads (f (pre ++ rest)) v rest

variable {n : Nat} {f : (ts : List Token) → Outcome α (bound ts)} {m : NonTerminal}
  {goesOn : Token.Kind → Bool}

theorem Sound.nt (h : Sound n f (rule m)) : Sound n f (.nt m) := by
  intro ts v rest hle hread
  obtain ⟨pre, hpre, hspell⟩ := h hle hread
  exact ⟨pre, hpre, spells_nt.mpr hspell⟩

theorem Complete.nt (h : Complete n f (rule m) goesOn) : Complete n f (.nt m) goesOn := by
  intro pre hle hspell
  exact h hle (spells_nt.mp hspell)

end Definitions

section Separated

variable {α : Type} {n : Nat} {p : Punct} {item : (ts : List Token) → Outcome α ts.length}
  {items : (ts : List Token) → Outcome (List α) ts.length} {r : Rhs}

/-- Lists with marks are read soundly if their items are. -/
theorem sound_separated (hlist : Separated p item items) (hitem : Sound n item r) :
    Sound n items (.sepBy r p) := by
  intro ts v rest hle h
  obtain ⟨k, hlen⟩ : ∃ k, ts.length = k := ⟨_, rfl⟩
  induction k using Nat.strongRecOn generalizing ts v with
  | ind k ih =>
      obtain ⟨first, r₁, hfirst, hrest⟩ := hlist.reads_items.mp h
      have hshort := hfirst.shorter
      obtain ⟨u, rfl, hu⟩ := hitem hle hfirst
      rcases hrest with ⟨_, _, rfl⟩ | ⟨span, r₂, more, rfl, hmore, _⟩
      · exact ⟨u, rfl, spells_sepBy.mpr ⟨u, [], by simp, hu, .inl rfl⟩⟩
      · rw [List.length_cons] at hshort
        obtain ⟨w, rfl, hw⟩ := ih r₂.length (by omega) (by omega) hmore rfl
        exact ⟨u ++ ⟨.punct p, span⟩ :: w, by simp,
          spells_sepBy.mpr ⟨u, _, rfl, hu, .inr ⟨span, w, rfl, hw⟩⟩⟩

/-- Lists with marks are read completely if their items are and the mark does not go on with an item. -/
theorem complete_separated {goesOn : Token.Kind → Bool} (hlist : Separated p item items)
    (hitem : Complete n item r goesOn) (hmark : goesOn (.punct p) = false) :
    Complete n items (.sepBy r p) (fun k => goesOn k || is (.punct p) k) := by
  intro pre hle h
  obtain ⟨k, hlen⟩ : ∃ k, pre.length = k := ⟨_, rfl⟩
  induction k using Nat.strongRecOn generalizing pre with
  | ind k ih =>
      obtain ⟨u, v, rfl, hu, hv⟩ := spells_sepBy.mp h
      rw [List.length_append] at hle hlen
      obtain ⟨first, hfirst⟩ := hitem (by omega) hu
      rcases hv with rfl | ⟨span, w, rfl, hw⟩
      · refine ⟨[first], fun rest hrest => ?_⟩
        rw [List.append_nil]
        refine hlist.reads_items.mpr ⟨first, rest, hfirst rest ?_, .inl ⟨?_, rfl, rfl⟩⟩
        · exact hrest.mono (fun k hk => by simp [hk])
        · exact hrest.mono (fun k hk => by simp [hk])
      · rw [List.length_cons] at hle hlen
        obtain ⟨more, hmore⟩ := ih w.length (by omega) (by omega) hw rfl
        refine ⟨first :: more, fun rest hrest => ?_⟩
        rw [List.append_assoc]
        exact hlist.reads_items.mpr ⟨first, _, hfirst _ (stops_cons.mpr hmark), .inr
          ⟨span, w ++ rest, more, rfl, hmore rest hrest, rfl⟩⟩

end Separated

/-! ## Operators -/

/-- The operators of products. -/
abbrev mulOp : Rhs := .alt [.op .star, .op .slash, .kw .and]

/-- The operators of sums. -/
abbrev addOp : Rhs := .alt [.op .plus, .op .minus, .kw .or]

/-- Arguments behind the opening parenthesis. -/
abbrev argsTail : Rhs := .seq [.opt (.nt .exprList), .mark .rparen]

section Operators

variable {ts : List Token}

/-- The multiplicative operators of the grammar are the tokens that `multiplicative?` reads. -/
theorem spells_mulOp :
    Spells mulOp ts ↔ ∃ t op, ts = [t] ∧ multiplicative? t.kind = some op := by
  rw [spells_alt]
  constructor
  · rintro ⟨r, hr, h⟩
    simp only [List.mem_cons, List.not_mem_nil, or_false] at hr
    rcases hr with rfl | rfl | rfl
    all_goals
      obtain ⟨t, rfl, hk⟩ := spells_tok.mp h
      exact ⟨t, _, rfl, by rw [show t.kind = _ from hk]; rfl⟩
  · rintro ⟨t, op, rfl, hop⟩
    unfold multiplicative? at hop
    split at hop
    · next hk => exact ⟨.op .star, by simp, spells_tok.mpr ⟨t, rfl, hk⟩⟩
    · next hk => exact ⟨.op .slash, by simp, spells_tok.mpr ⟨t, rfl, hk⟩⟩
    · next hk => exact ⟨.kw .and, by simp, spells_tok.mpr ⟨t, rfl, hk⟩⟩
    · cases hop

/-- The additive operators of the grammar are the tokens that `additive?` reads. -/
theorem spells_addOp : Spells addOp ts ↔ ∃ t op, ts = [t] ∧ additive? t.kind = some op := by
  rw [spells_alt]
  constructor
  · rintro ⟨r, hr, h⟩
    simp only [List.mem_cons, List.not_mem_nil, or_false] at hr
    rcases hr with rfl | rfl | rfl
    all_goals
      obtain ⟨t, rfl, hk⟩ := spells_tok.mp h
      exact ⟨t, _, rfl, by rw [show t.kind = _ from hk]; rfl⟩
  · rintro ⟨t, op, rfl, hop⟩
    unfold additive? at hop
    split at hop
    · next hk => exact ⟨.op .plus, by simp, spells_tok.mpr ⟨t, rfl, hk⟩⟩
    · next hk => exact ⟨.op .minus, by simp, spells_tok.mpr ⟨t, rfl, hk⟩⟩
    · next hk => exact ⟨.kw .or, by simp, spells_tok.mpr ⟨t, rfl, hk⟩⟩
    · cases hop

/-- The relational operators of the grammar are the tokens that `relational?` reads. -/
theorem spells_relOp :
    Spells (.nt .relOp) ts ↔ ∃ t op, ts = [t] ∧ relational? t.kind = some op := by
  rw [spells_nt, rule, spells_alt]
  constructor
  · rintro ⟨r, hr, h⟩
    simp only [List.mem_cons, List.not_mem_nil, or_false] at hr
    rcases hr with rfl | rfl | rfl | rfl | rfl | rfl
    all_goals
      obtain ⟨t, rfl, hk⟩ := spells_tok.mp h
      exact ⟨t, _, rfl, by rw [show t.kind = _ from hk]; rfl⟩
  · rintro ⟨t, op, rfl, hop⟩
    unfold relational? at hop
    split at hop
    · next hk => exact ⟨.op .eq, by simp, spells_tok.mpr ⟨t, rfl, hk⟩⟩
    · next hk => exact ⟨.op .notEq, by simp, spells_tok.mpr ⟨t, rfl, hk⟩⟩
    · next hk => exact ⟨.op .lt, by simp, spells_tok.mpr ⟨t, rfl, hk⟩⟩
    · next hk => exact ⟨.op .ltEq, by simp, spells_tok.mpr ⟨t, rfl, hk⟩⟩
    · next hk => exact ⟨.op .gt, by simp, spells_tok.mpr ⟨t, rfl, hk⟩⟩
    · next hk => exact ⟨.op .gtEq, by simp, spells_tok.mpr ⟨t, rfl, hk⟩⟩
    · cases hop

/-! ## Factors -/

/-- The forms of a factor. -/
inductive FactorForm : List Token → Prop where
  | int {n span} : FactorForm [⟨.int n, span⟩]
  | true {span} : FactorForm [⟨.keyword .true, span⟩]
  | false {span} : FactorForm [⟨.keyword .false, span⟩]
  | var {x span} : FactorForm [⟨.ident x, span⟩]
  | call {x span opening u} : Spells argsTail u →
      FactorForm (⟨.ident x, span⟩ :: ⟨.punct .lparen, opening⟩ :: u)
  | paren {span u stop} : Spells (.nt .expr) u →
      FactorForm (⟨.punct .lparen, span⟩ :: (u ++ [⟨.punct .rparen, stop⟩]))
  | not {span u} : Spells (.nt .factor) u → FactorForm (⟨.keyword .not, span⟩ :: u)

/-- The forms of a factor are the alternatives of its rule. -/
theorem spells_factor : Spells (.nt .factor) ts ↔ FactorForm ts := by
  rw [spells_nt, rule, spells_alt]
  constructor
  · rintro ⟨r, hr, h⟩
    simp only [List.mem_cons, List.not_mem_nil, or_false] at hr
    rcases hr with rfl | rfl | rfl | rfl | rfl | rfl
    · obtain ⟨⟨_, span⟩, v, rfl, ⟨x, rfl⟩, hv⟩ := spells_tok_cons.mp h
      rcases spells_opt.mp (spells_last.mp hv) with rfl | hargs
      · exact .var
      · obtain ⟨⟨_, opening⟩, u, rfl, rfl, hu⟩ := spells_tok_cons.mp hargs
        exact .call hu
    · obtain ⟨⟨_, span⟩, rfl, n, rfl⟩ := spells_tok.mp h
      exact .int
    · obtain ⟨⟨_, span⟩, v, rfl, rfl, hv⟩ := spells_tok_cons.mp h
      obtain ⟨u, w, rfl, hu, hw⟩ := spells_seq_cons.mp hv
      obtain ⟨stop, rfl⟩ := spells_mark.mp (spells_last.mp hw)
      exact .paren hu
    · obtain ⟨span, rfl⟩ := spells_kw.mp h
      exact .true
    · obtain ⟨span, rfl⟩ := spells_kw.mp h
      exact .false
    · obtain ⟨⟨_, span⟩, v, rfl, rfl, hv⟩ := spells_tok_cons.mp h
      exact .not (spells_last.mp hv)
  · intro h
    cases h with
    | @int k _ => exact ⟨.tok .number, by simp, spells_tok.mpr ⟨_, rfl, k, rfl⟩⟩
    | true => exact ⟨.kw .true, by simp, spells_tok.mpr ⟨_, rfl, rfl⟩⟩
    | false => exact ⟨.kw .false, by simp, spells_tok.mpr ⟨_, rfl, rfl⟩⟩
    | @var x _ =>
        refine ⟨_, List.mem_cons_self, spells_tok_cons.mpr ⟨_, [], rfl, ⟨x, rfl⟩, ?_⟩⟩
        exact spells_last.mpr (spells_opt.mpr (.inl rfl))
    | @call x _ _ u hu =>
        refine ⟨_, List.mem_cons_self, spells_tok_cons.mpr ⟨_, _, rfl, ⟨x, rfl⟩, ?_⟩⟩
        exact spells_last.mpr (spells_opt.mpr (.inr (spells_tok_cons.mpr ⟨_, u, rfl, rfl, hu⟩)))
    | @paren _ u _ hu =>
        refine ⟨.seq [.mark .lparen, .nt .expr, .mark .rparen], by simp, ?_⟩
        refine spells_tok_cons.mpr ⟨_, _, rfl, rfl, spells_seq_cons.mpr ⟨u, _, rfl, hu, ?_⟩⟩
        exact spells_last.mpr (spells_tok.mpr ⟨_, rfl, rfl⟩)
    | @not _ u hu =>
        refine ⟨.seq [.kw .not, .nt .factor], by simp, ?_⟩
        exact spells_tok_cons.mpr ⟨_, u, rfl, rfl, spells_last.mpr hu⟩

/-- The tokens that an expression may start with. -/
def startsExpr : Token.Kind → Bool
  | .int _ | .ident _ | .keyword .true | .keyword .false | .keyword .not | .punct .lparen => true
  | _ => false

/-- A factor is not empty, and its first token is one that an expression can start with. -/
theorem starts_of_factor (h : Spells (.nt .factor) ts) :
    ∃ t r, ts = t :: r ∧ startsExpr t.kind = true := by
  cases spells_factor.mp h
  all_goals exact ⟨_, _, rfl, rfl⟩

/-- An expression is not empty, and its first token is the first of a factor. -/
theorem starts_of_expr (h : Spells (.nt .expr) ts) :
    ∃ t r, ts = t :: r ∧ startsExpr t.kind = true := by
  obtain ⟨s, _, rfl, hs, _⟩ := spells_seq_cons.mp (spells_nt.mp h)
  obtain ⟨p, _, rfl, hp, _⟩ := spells_seq_cons.mp (spells_nt.mp hs)
  obtain ⟨f, _, rfl, hf, _⟩ := spells_seq_cons.mp (spells_nt.mp hp)
  obtain ⟨t, r, rfl, ht⟩ := starts_of_factor hf
  exact ⟨t, _, rfl, ht⟩

end Operators

/-! ## Soundness -/

section Soundness

variable {n : Nat}

section Rows

variable {level : Token.Kind → Option BinOp}
  {operand row : (ts : List Token) → Outcome Expr ts.length}
  {tail : Expr → (ts : List Token) → Outcome Expr (ts.length + 1)} {opRhs operandRhs : Rhs}

/-- The rest of a row of operands: each round takes an operator and an operand, so the rest is shorter. -/
theorem sound_rowTail (hrow : Row level operand row tail)
    (hop : ∀ t op, level t.kind = some op → Spells opRhs [t]) (hf : Sound n operand operandRhs)
    (left : Expr) : Sound n (tail left) (.star (.seq [opRhs, operandRhs])) := by
  intro ts v rest hle h
  obtain ⟨k, hlen⟩ : ∃ k, ts.length = k := ⟨_, rfl⟩
  induction k using Nat.strongRecOn generalizing left ts with
  | ind k ih =>
      rcases hrow.reads_tail.mp h with ⟨_, _, rfl⟩ | ⟨t, op, r, right, r₁, rfl, ht, hr, htail⟩
      · exact ⟨[], rfl, spells_star.mpr (.inl rfl)⟩
      · -- an operator and an operand were taken, so the induction hypothesis holds of the rest
        have hshort := hr.shorter
        rw [List.length_cons] at hlen hle
        obtain ⟨u, rfl, hu⟩ := hf (by omega) hr
        obtain ⟨w, rfl, hw⟩ := ih r₁.length (by omega) _ (by omega) htail rfl
        refine ⟨(t :: u) ++ w, by simp, spells_star.mpr (.inr ⟨t :: u, w, rfl, ?_, hw⟩)⟩
        exact spells_seq_cons.mpr ⟨[t], u, rfl, hop t op ht, spells_last.mpr hu⟩

/-- A row of operands is sound for `operand (op operand)*` if its operands are sound and its operators
    are those of the rule. -/
theorem sound_row (hrow : Row level operand row tail)
    (hop : ∀ t op, level t.kind = some op → Spells opRhs [t]) (hf : Sound n operand operandRhs) :
    Sound n row (.seq [operandRhs, .star (.seq [opRhs, operandRhs])]) := by
  intro ts v rest hle h
  obtain ⟨left, r, hfirst, htail⟩ := hrow.reads_row.mp h
  have hshort := hfirst.shorter
  obtain ⟨u, rfl, hu⟩ := hf hle hfirst
  obtain ⟨w, rfl, hw⟩ := sound_rowTail hrow hop hf left (by omega) htail
  exact ⟨u ++ w, by simp, spells_seq_cons.mpr ⟨u, w, rfl, hu, spells_last.mpr hw⟩⟩

end Rows

theorem sound_product (hf : Sound n factor (.nt .factor)) : Sound n product (.nt .term) := by
  have hop : ∀ t op, multiplicative? t.kind = some op → Spells mulOp [t] :=
    fun t op ht => spells_mulOp.mpr ⟨t, op, rfl, ht⟩
  exact .nt (sound_row row_product hop hf)

theorem sound_sum (hp : Sound n product (.nt .term)) : Sound n sum (.nt .simpleExpr) := by
  have hop : ∀ t op, additive? t.kind = some op → Spells addOp [t] :=
    fun t op ht => spells_addOp.mpr ⟨t, op, rfl, ht⟩
  exact .nt (sound_row row_sum hop hp)

theorem sound_expression (hs : Sound n sum (.nt .simpleExpr)) : Sound n expression (.nt .expr) := by
  intro ts v rest hle h
  obtain ⟨left, r, hfirst, hrest⟩ := reads_expression.mp h
  have hshort := hfirst.shorter
  obtain ⟨u, rfl, hu⟩ := hs hle hfirst
  rcases hrest with ⟨_, _, rfl⟩ | ⟨t, op, r₁, right, rfl, hop, hright, _⟩
  · refine ⟨u, rfl, spells_nt.mpr (spells_seq_cons.mpr ⟨u, [], by simp, hu, ?_⟩)⟩
    exact spells_last.mpr (spells_opt.mpr (.inl rfl))
  · rw [List.length_cons] at hshort
    obtain ⟨w, rfl, hw⟩ := hs (by omega) hright
    refine ⟨u ++ t :: w, by simp, spells_nt.mpr (spells_seq_cons.mpr ⟨u, t :: w, rfl, hu, ?_⟩)⟩
    refine spells_last.mpr (spells_opt.mpr (.inr (spells_seq_cons.mpr ⟨[t], w, rfl, ?_, ?_⟩)))
    · exact spells_relOp.mpr ⟨t, op, rfl, hop⟩
    · exact spells_last.mpr hw

theorem sound_expressions (he : Sound n expression (.nt .expr)) :
    Sound n expressions (.nt .exprList) :=
  .nt (sound_separated separated_expressions he)

/-- An argument list behind its opening parenthesis is sound if its expressions are. -/
theorem sound_arguments (he : Sound n expression (.nt .expr)) (close : Expectation) :
    Sound n (arguments close) argsTail := by
  intro ts v rest hle h
  obtain ⟨args, stop⟩ := v
  rcases reads_arguments.mp h with ⟨rfl, _⟩ | ⟨_, hargs⟩
  · refine ⟨[⟨.punct .rparen, stop⟩], rfl, spells_seq_cons.mpr ⟨[], _, rfl, ?_, ?_⟩⟩
    · exact spells_opt.mpr (.inl rfl)
    · exact spells_last.mpr (spells_tok.mpr ⟨_, rfl, rfl⟩)
  · obtain ⟨u, rfl, hu⟩ := sound_expressions he hle hargs
    refine ⟨u ++ [⟨.punct .rparen, stop⟩], by simp, spells_seq_cons.mpr ⟨u, _, rfl, ?_, ?_⟩⟩
    · exact spells_opt.mpr (.inr hu)
    · exact spells_last.mpr (spells_tok.mpr ⟨_, rfl, rfl⟩)

/-- Factors, from what is known of fewer tokens. -/
theorem sound_factor
    (ih : ∀ m < n, Sound m factor (.nt .factor) ∧ Sound m expression (.nt .expr)) :
    Sound n factor (.nt .factor) := by
  intro ts v rest hle h
  cases reads_factor.mp h with
  | @int k span => exact ⟨[⟨.int k, span⟩], rfl, spells_factor.mpr .int⟩
  | @true span => exact ⟨[⟨.keyword .true, span⟩], rfl, spells_factor.mpr .true⟩
  | @false span => exact ⟨[⟨.keyword .false, span⟩], rfl, spells_factor.mpr .false⟩
  | @var x span _ _ => exact ⟨[⟨.ident x, span⟩], rfl, spells_factor.mpr .var⟩
  | @call x span opening r args stop _ hargs =>
      rw [List.length_cons, List.length_cons] at hle
      obtain ⟨u, rfl, hu⟩ := sound_arguments (ih r.length (by omega)).2 _ (Nat.le_refl _) hargs
      exact ⟨⟨.ident x, span⟩ :: ⟨.punct .lparen, opening⟩ :: u, rfl, spells_factor.mpr (.call hu)⟩
  | @paren span r inner stop _ hinner =>
      rw [List.length_cons] at hle
      obtain ⟨u, rfl, hu⟩ := (ih r.length (by omega)).2 (Nat.le_refl _) hinner
      exact ⟨⟨.punct .lparen, span⟩ :: (u ++ [⟨.punct .rparen, stop⟩]), by simp,
        spells_factor.mpr (.paren hu)⟩
  | @not span r operand _ hoperand =>
      rw [List.length_cons] at hle
      obtain ⟨u, rfl, hu⟩ := (ih r.length (by omega)).1 (Nat.le_refl _) hoperand
      exact ⟨⟨.keyword .not, span⟩ :: u, rfl, spells_factor.mpr (.not hu)⟩

/-- **Expressions are read soundly**, by induction on the number of tokens. -/
theorem sound_exprs (n : Nat) : Sound n factor (.nt .factor) ∧ Sound n expression (.nt .expr) := by
  induction n using Nat.strongRecOn with
  | ind n ih =>
      have hfactor := sound_factor ih
      exact ⟨hfactor, sound_expression (sound_sum (sound_product hfactor))⟩

end Soundness

/-! ## Completeness -/

/-- The tokens that go on with a factor: an opening parenthesis makes a name a call. -/
abbrev factorGoesOn : Token.Kind → Bool := is (.punct .lparen)

/-- The tokens that go on with a product. -/
abbrev productGoesOn : Token.Kind → Bool := fun k => factorGoesOn k || (multiplicative? k).isSome

/-- The tokens that go on with a sum. -/
abbrev sumGoesOn : Token.Kind → Bool := fun k => productGoesOn k || (additive? k).isSome

/-- The tokens that go on with an expression. -/
abbrev exprGoesOn : Token.Kind → Bool := fun k => sumGoesOn k || (relational? k).isSome

section Completeness

variable {n : Nat}

theorem factor_stops_mul (k : Token.Kind) (h : (multiplicative? k).isSome) :
    factorGoesOn k = false := by
  unfold multiplicative? at h
  split at h <;> first | rfl | cases h

theorem product_stops_add (k : Token.Kind) (h : (additive? k).isSome) : productGoesOn k = false := by
  unfold additive? at h
  split at h <;> first | rfl | cases h

theorem sum_stops_rel (k : Token.Kind) (h : (relational? k).isSome) : sumGoesOn k = false := by
  unfold relational? at h
  split at h <;> first | rfl | cases h

section Rows

variable {level : Token.Kind → Option BinOp}
  {operand row : (ts : List Token) → Outcome Expr ts.length}
  {tail : Expr → (ts : List Token) → Outcome Expr (ts.length + 1)} {opRhs operandRhs : Rhs}
  {goesOn : Token.Kind → Bool}

/-- What follows an operand of a row does not go on with it: the next operator, or what follows the
    row. -/
theorem stops_rowTail {w rest : List Token}
    (hop : ∀ {ts}, Spells opRhs ts → ∃ t op, ts = [t] ∧ level t.kind = some op)
    (hlevel : ∀ k, (level k).isSome → goesOn k = false)
    (hw : Spells (.star (.seq [opRhs, operandRhs])) w)
    (hrest : Stops (fun k => goesOn k || (level k).isSome) rest) : Stops goesOn (w ++ rest) := by
  rcases spells_star.mp hw with rfl | ⟨u, w', rfl, hu, _⟩
  · exact hrest.mono (fun k hk => by simp [hk])
  · obtain ⟨o, a, rfl, ho, _⟩ := spells_seq_cons.mp hu
    obtain ⟨t, op, rfl, ht⟩ := hop ho
    exact stops_cons.mpr (hlevel _ (by rw [ht]; rfl))

/-- The rest of a row is read to its end: at each operator the operand behind it stops before the next
    one. -/
theorem complete_rowTail (hrow : Row level operand row tail)
    (hop : ∀ {ts}, Spells opRhs ts → ∃ t op, ts = [t] ∧ level t.kind = some op)
    (hlevel : ∀ k, (level k).isSome → goesOn k = false) (hf : Complete n operand operandRhs goesOn)
    (left : Expr) :
    Complete n (tail left) (.star (.seq [opRhs, operandRhs]))
      (fun k => goesOn k || (level k).isSome) := by
  intro pre hle h
  obtain ⟨k, hlen⟩ : ∃ k, pre.length = k := ⟨_, rfl⟩
  induction k using Nat.strongRecOn generalizing left pre with
  | ind k ih =>
      rcases spells_star.mp h with rfl | ⟨u, w, rfl, hu, hw⟩
      · refine ⟨left, fun rest hrest => hrow.reads_tail.mpr (.inl ⟨?_, rfl, rfl⟩)⟩
        exact hrest.mono (fun k hk => by simp [hk])
      · obtain ⟨o, a, rfl, ho, ha⟩ := spells_seq_cons.mp hu
        obtain ⟨t, op, rfl, ht⟩ := hop ho
        simp only [List.length_append, List.length_cons, List.length_nil] at hlen hle
        obtain ⟨right, hright⟩ := hf (by omega) (spells_last.mp ha)
        obtain ⟨whole, hwhole⟩ := ih w.length (by omega) (.join op left right) (by omega) hw rfl
        -- behind the operand stands the next operator of the row, or what follows the row
        refine ⟨whole, fun rest hrest => hrow.reads_tail.mpr (.inr ⟨t, op, a ++ (w ++ rest), right,
          w ++ rest, by simp, ht, hright _ ?_, hwhole rest hrest⟩)⟩
        exact stops_rowTail hop hlevel hw hrest

/-- A whole row is read to its end, if what follows neither goes on with its last operand nor is an
    operator of its level. -/
theorem complete_row (hrow : Row level operand row tail)
    (hop : ∀ {ts}, Spells opRhs ts → ∃ t op, ts = [t] ∧ level t.kind = some op)
    (hlevel : ∀ k, (level k).isSome → goesOn k = false)
    (hf : Complete n operand operandRhs goesOn) :
    Complete n row (.seq [operandRhs, .star (.seq [opRhs, operandRhs])])
      (fun k => goesOn k || (level k).isSome) := by
  intro pre hle h
  obtain ⟨a, w, rfl, ha, hw⟩ := spells_seq_cons.mp h
  rw [List.length_append] at hle
  obtain ⟨left, hleft⟩ := hf (by omega) ha
  obtain ⟨whole, hwhole⟩ := complete_rowTail hrow hop hlevel hf left (by omega) (spells_last.mp hw)
  refine ⟨whole, fun rest hrest => ?_⟩
  rw [List.append_assoc]
  refine hrow.reads_row.mpr ⟨left, w ++ rest, hleft _ ?_, hwhole rest hrest⟩
  exact stops_rowTail hop hlevel (spells_last.mp hw) hrest

end Rows

theorem complete_product (hf : Complete n factor (.nt .factor) factorGoesOn) :
    Complete n product (.nt .term) productGoesOn :=
  .nt (complete_row row_product spells_mulOp.mp factor_stops_mul hf)

theorem complete_sum (hp : Complete n product (.nt .term) productGoesOn) :
    Complete n sum (.nt .simpleExpr) sumGoesOn :=
  .nt (complete_row row_sum spells_addOp.mp product_stops_add hp)

theorem complete_expression (hs : Complete n sum (.nt .simpleExpr) sumGoesOn) :
    Complete n expression (.nt .expr) exprGoesOn := by
  intro pre hle h
  obtain ⟨a, w, rfl, ha, hw⟩ := spells_seq_cons.mp (spells_nt.mp h)
  rw [List.length_append] at hle
  obtain ⟨left, hleft⟩ := hs (by omega) ha
  rcases spells_opt.mp (spells_last.mp hw) with rfl | hcmp
  · refine ⟨left, fun rest hrest => reads_expression.mpr ⟨left, rest, ?_, .inl ⟨?_, rfl, rfl⟩⟩⟩
    · rw [List.append_nil]
      exact hleft rest (hrest.mono (fun k hk => by simp [hk]))
    · exact hrest.mono (fun k hk => by simp [hk])
  · obtain ⟨o, b, rfl, ho, hb⟩ := spells_seq_cons.mp hcmp
    obtain ⟨t, op, rfl, ht⟩ := spells_relOp.mp ho
    rw [List.length_append] at hle
    obtain ⟨right, hright⟩ := hs (by omega) (spells_last.mp hb)
    refine ⟨.join op left right, fun rest hrest => ?_⟩
    rw [List.append_assoc]
    -- an operator that compares ends the sum in front of it
    refine reads_expression.mpr ⟨left, t :: (b ++ rest), hleft _ ?_, .inr ⟨t, op, b ++ rest, right,
      rfl, ht, hright rest (hrest.mono (fun k hk => by simp [hk])), rfl⟩⟩
    exact stops_cons.mpr (sum_stops_rel _ (by rw [ht]; rfl))

/-- A list of expressions is read to its end, if neither a comma nor more of its last expression follows.
    -/
theorem complete_expressions (he : Complete n expression (.nt .expr) exprGoesOn) :
    Complete n expressions (.nt .exprList) (fun k => exprGoesOn k || is (.punct .comma) k) :=
  .nt (complete_separated separated_expressions he rfl)

/-- Arguments end with their parenthesis, whatever follows. -/
theorem complete_arguments (he : Complete n expression (.nt .expr) exprGoesOn)
    (close : Expectation) : Complete n (arguments close) argsTail (fun _ => false) := by
  intro pre hle h
  obtain ⟨u, w, rfl, hu, hw⟩ := spells_seq_cons.mp h
  obtain ⟨stop, rfl⟩ := spells_mark.mp (spells_last.mp hw)
  rw [List.length_append] at hle
  rcases spells_opt.mp hu with rfl | hlist
  · exact ⟨([], stop), fun rest _ => reads_arguments.mpr (.inl ⟨rfl, rfl⟩)⟩
  · obtain ⟨args, hargs⟩ := complete_expressions he (by omega) hlist
    refine ⟨(args, stop), fun rest _ => ?_⟩
    rw [List.append_assoc]
    refine reads_arguments.mpr (.inr ⟨?_, hargs _ (stops_cons.mpr rfl)⟩)
    -- an expression does not start with a closing parenthesis
    obtain ⟨a, _, rfl, ha, _⟩ := spells_seq_cons.mp (spells_nt.mp hlist)
    obtain ⟨⟨kind, _⟩, r, rfl, ht⟩ := starts_of_expr ha
    refine stops_cons.mpr (decide_eq_false ?_)
    rintro rfl
    cases ht

/-- Factors, from what is known of fewer tokens. -/
theorem complete_factor
    (ih : ∀ m < n, Complete m factor (.nt .factor) factorGoesOn ∧
      Complete m expression (.nt .expr) exprGoesOn) :
    Complete n factor (.nt .factor) factorGoesOn := by
  intro pre hle h
  cases spells_factor.mp h with
  | @int k span => exact ⟨.int k span, fun rest _ => reads_factor.mpr .int⟩
  | @true span => exact ⟨.bool true span, fun rest _ => reads_factor.mpr .true⟩
  | @false span => exact ⟨.bool false span, fun rest _ => reads_factor.mpr .false⟩
  | @var x span => exact ⟨.var x span, fun rest hrest => reads_factor.mpr (.var hrest)⟩
  | @call x span opening u hu =>
      rw [List.length_cons, List.length_cons] at hle
      obtain ⟨⟨args, stop⟩, hargs⟩ := complete_arguments (ih u.length (by omega)).2 .callClose
        (Nat.le_refl _) hu
      exact ⟨_, fun rest _ => reads_factor.mpr (.call (hargs rest (fun _ _ => rfl)))⟩
  | @paren span u stop hu =>
      rw [List.length_cons, List.length_append] at hle
      obtain ⟨inner, hinner⟩ := (ih u.length (by omega)).2 (Nat.le_refl _) hu
      refine ⟨.paren inner (span.merge stop), fun rest _ => ?_⟩
      rw [List.cons_append, List.append_assoc]
      exact reads_factor.mpr (.paren (hinner _ (stops_cons.mpr rfl)))
  | @not span u hu =>
      rw [List.length_cons] at hle
      obtain ⟨operand, hoperand⟩ := (ih u.length (by omega)).1 (Nat.le_refl _) hu
      exact ⟨_, fun rest hrest => reads_factor.mpr (.not (hoperand rest hrest))⟩

/-- **Expressions are read completely**, by induction on the number of tokens. -/
theorem complete_exprs (n : Nat) : Complete n factor (.nt .factor) factorGoesOn ∧
    Complete n expression (.nt .expr) exprGoesOn := by
  induction n using Nat.strongRecOn with
  | ind n ih =>
      have hfactor := complete_factor ih
      exact ⟨hfactor, complete_expression (complete_sum (complete_product hfactor))⟩

end Completeness

end Grammar
end TinyPascal
