import TinyPascal.Proofs.Grammar.Lookahead
import TinyPascal.Proofs.Grammar.Sentences

/-!
# `Proofs.Grammar.ViablePrefix` — errors sit at the first token that cannot go on

Tokens are **viable** for a right-hand side if more tokens can be put behind them that make them a word
of it. What a parser takes is viable, also when it then fails; and a parser that fails at a token fails
at it whatever stands behind it, while it reads every sentence, so no sentence goes on with that token.

## Contents
- **Productive rules.** `productive_nt`: every symbol of the grammar derives a word.
- **Following the grammar.** `Follows n p r`: what the reader takes is viable for `r`, and a word of `r`
  if it succeeds. One lemma for each way to put readers together.
- **Parsers.** From single tokens to `follows_program`.
- **The first token that does not fit.** `reject_at_first_misfit`.
-/

namespace TinyPascal
namespace Grammar

open TinyPascal.Parser

/-! ## Productive rules -/

/-- Some word is derived from the right-hand side. -/
def Productive (r : Rhs) : Prop :=
  ∃ ts, Spells r ts

section Productive

variable {r : Rhs} {more choices : List Rhs}

@[simp] theorem productive_tok (t : Terminal) : Productive (.tok t) := by
  cases t with
  | keyword word => exact ⟨[⟨.keyword word, {}⟩], spells_tok.mpr ⟨_, rfl, rfl⟩⟩
  | operator op => exact ⟨[⟨.operator op, {}⟩], spells_tok.mpr ⟨_, rfl, rfl⟩⟩
  | punct mark => exact ⟨[⟨.punct mark, {}⟩], spells_tok.mpr ⟨_, rfl, rfl⟩⟩
  | ident => exact ⟨[⟨.ident "x", {}⟩], spells_tok.mpr ⟨_, rfl, "x", rfl⟩⟩
  | number => exact ⟨[⟨.int 0, {}⟩], spells_tok.mpr ⟨_, rfl, 0, rfl⟩⟩

@[simp] theorem productive_opt : Productive (.opt r) :=
  ⟨[], spells_opt.mpr (.inl rfl)⟩

@[simp] theorem productive_star : Productive (.star r) :=
  ⟨[], spells_star.mpr (.inl rfl)⟩

@[simp] theorem productive_seq_nil : Productive (.seq []) :=
  ⟨[], spells_seq_nil.mpr rfl⟩

@[simp] theorem productive_seq_cons :
    Productive (.seq (r :: more)) ↔ Productive r ∧ Productive (.seq more) := by
  constructor
  · rintro ⟨ts, h⟩
    obtain ⟨u, v, rfl, hu, hv⟩ := spells_seq_cons.mp h
    exact ⟨⟨u, hu⟩, ⟨v, hv⟩⟩
  · rintro ⟨⟨u, hu⟩, ⟨v, hv⟩⟩
    exact ⟨u ++ v, spells_seq_cons.mpr ⟨u, v, rfl, hu, hv⟩⟩

theorem productive_alt (hr : r ∈ choices) (h : Productive r) : Productive (.alt choices) := by
  obtain ⟨ts, h⟩ := h
  exact ⟨ts, spells_alt.mpr ⟨r, hr, h⟩⟩

theorem productive_of_rule {n : NonTerminal} (h : Productive (rule n)) : Productive (.nt n) := by
  obtain ⟨ts, h⟩ := h
  exact ⟨ts, spells_nt.mpr h⟩

/-- **Every symbol of the grammar derives a word.** Symbols whose rules mention others come after
    these. -/
@[simp] theorem productive_nt (n : NonTerminal) : Productive (.nt n) := by
  have htype : Productive (.nt .type) :=
    productive_of_rule (productive_alt List.mem_cons_self (productive_tok _))
  have hvarList : Productive (.nt .varList) := productive_of_rule (by simp [rule])
  have hparam : Productive (.nt .param) := productive_of_rule (by simp [rule, htype, hvarList])
  have hrelOp : Productive (.nt .relOp) :=
    productive_of_rule (productive_alt List.mem_cons_self (productive_tok _))
  have hfactor : Productive (.nt .factor) :=
    productive_of_rule (productive_alt List.mem_cons_self (by simp))
  have hterm : Productive (.nt .term) := productive_of_rule (by simp [rule, hfactor])
  have hsimple : Productive (.nt .simpleExpr) := productive_of_rule (by simp [rule, hterm])
  have hexpr : Productive (.nt .expr) := productive_of_rule (by simp [rule, hsimple])
  have hlist : Productive (.nt .stmtList) := productive_of_rule (by simp [rule])
  have hblock : Productive (.nt .block) := productive_of_rule (by simp [rule, hlist])
  have hassign : Productive (.nt .assign) := productive_of_rule (by simp [rule, hexpr])
  cases n with
  | stmt => exact productive_of_rule (productive_alt List.mem_cons_self hassign)
  | program =>
      have hdecls : Productive (.nt .globalDecls) := productive_of_rule (by simp [rule])
      exact productive_of_rule (by simp [rule, hdecls, hblock])
  | type => exact htype
  | relOp => exact hrelOp
  | factor => exact hfactor
  | _ => exact productive_of_rule (by simp [rule, htype, hvarList, hparam, hexpr, hsimple, hterm,
      hfactor, hlist, hblock])

end Productive

/-! ## Following the grammar -/

/-- More tokens make these a word of the right-hand side. -/
def Viable (r : Rhs) (pre : List Token) : Prop :=
  ∃ more, Spells r (pre ++ more)

theorem Viable.of_spells {r : Rhs} {pre : List Token} (h : Spells r pre) : Viable r pre :=
  ⟨[], by rwa [List.append_nil]⟩

section Definitions

variable {α β : Type}

/-- What the reader takes is viable, and a word of the right-hand side if it succeeds. -/
def FollowsAt (p : Reader α) (r : Rhs) (ts : List Token) : Prop :=
  ∃ pre, ts = pre ++ (p ts).2 ∧ Viable r pre ∧ ∀ v, (p ts).1 = .ok v → Spells r pre

/-- The reader follows the right-hand side on at most `n` tokens. -/
def Follows (n : Nat) (p : Reader α) (r : Rhs) : Prop :=
  ∀ ts, ts.length ≤ n → FollowsAt p r ts

namespace Follows

variable {n : Nat} {r R S : Rhs} {more : List Rhs} {p : Reader β} {k : β → Reader α}
  {no : Reader α}

theorem mono {m : Nat} (h : Follows n p r) (hle : m ≤ n) : Follows m p r := by
  intro ts hts
  exact h ts (Nat.le_trans hts hle)

/-- Words of one right-hand side that are words of another. -/
theorem imp (h : Follows n p S) (himp : ∀ w, Spells S w → Spells R w) : Follows n p R := by
  intro ts hle
  obtain ⟨pre, hts, ⟨w, hw⟩, hok⟩ := h ts hle
  exact ⟨pre, hts, ⟨w, himp _ hw⟩, fun v hv => himp _ (hok v hv)⟩

theorem nt {m : NonTerminal} (h : Follows n p (rule m)) : Follows n p (.nt m) :=
  h.imp (fun _ => spells_nt.mpr)

theorem last (h : Follows n p r) : Follows n p (.seq [r]) :=
  h.imp (fun _ => spells_last.mpr)

theorem done {v : α} (h : Spells r []) : Follows n (Reader.done v) r := by
  intro ts _
  exact ⟨[], rfl, .of_spells h, fun _ _ => h⟩

theorem fail {e : Expectation} (h : Productive r) : Follows n (Reader.fail (α := α) e) r := by
  intro ts _
  obtain ⟨w, hw⟩ := h
  refine ⟨[], rfl, ⟨w, hw⟩, ?_⟩
  intro v hv
  cases hv

/-- Two readings in a row follow a sequence, of which the rest must be productive for the case that the
    first one fails. -/
theorem andThen_of (hp : Follows n p r) (hmore : Productive (.seq more))
    (hk : ∀ ts v rest, ts.length ≤ n → p ts = (.ok v, rest) → FollowsAt (k v) (.seq more) rest) :
    Follows n (Reader.andThen p k) (.seq (r :: more)) := by
  intro ts hle
  obtain ⟨pre, hts, hviable, hspells⟩ := hp ts hle
  cases hres : p ts with
  | mk found rest =>
      rw [hres] at hts hspells
      cases found with
      | error e =>
          have hrun : Reader.andThen p k ts = (.error e, rest) := by simp only [Reader.andThen, hres]
          rw [FollowsAt, hrun]
          obtain ⟨u, hu⟩ := hviable
          obtain ⟨w, hw⟩ := hmore
          refine ⟨pre, hts, ⟨u ++ w, ?_⟩, ?_⟩
          · exact spells_seq_cons.mpr ⟨pre ++ u, w, by simp, hu, hw⟩
          · intro v hv
            cases hv
      | ok v =>
          have hrun : Reader.andThen p k ts = k v rest := by simp only [Reader.andThen, hres]
          have hpre : Spells r pre := hspells v rfl
          obtain ⟨pre', hrest, ⟨w, hw⟩, hspells'⟩ := hk ts v rest hle hres
          rw [FollowsAt, hrun]
          refine ⟨pre ++ pre', ?_, ⟨w, ?_⟩, ?_⟩
          · rw [List.append_assoc, ← hrest]
            exact hts
          · exact spells_seq_cons.mpr ⟨pre, pre' ++ w, by simp, hpre, hw⟩
          · intro v' hv'
            exact spells_seq_cons.mpr ⟨pre, pre', rfl, hpre, hspells' v' hv'⟩

/-- One reader behind another: if the second one fails, the word can still be completed, since the rest
    is productive. -/
theorem andThen (hp : Follows n p r) (hk : ∀ v, Follows n (k v) (.seq more))
    (hmore : Productive (.seq more)) : Follows n (Reader.andThen p k) (.seq (r :: more)) := by
  refine hp.andThen_of hmore (fun ts v rest hle hres => hk v rest ?_)
  obtain ⟨pre, hts, _⟩ := hp ts hle
  rw [hres] at hts
  have hlen : ts.length = (pre ++ rest).length := congrArg List.length hts
  rw [List.length_append] at hlen
  omega

/-- Behind a parser that has taken a token, fewer tokens are left. -/
theorem andThen_shorter {g : (ts : List Token) → Outcome β ts.length} (hp : Follows n (Reader.of g) r)
    (hk : ∀ v, ∀ m < n, Follows m (k v) (.seq more)) (hmore : Productive (.seq more)) :
    Follows n (Reader.andThen (Reader.of g) k) (.seq (r :: more)) := by
  refine hp.andThen_of hmore (fun ts v rest hle hres => ?_)
  have hshort := Reader.shorter_of hres
  exact hk v rest.length (by omega) rest (Nat.le_refl _)

/-- Putting together what was read takes no tokens. -/
theorem map {v : β → α} (hp : Follows n p r) :
    Follows n (Reader.andThen p (fun w => Reader.done (v w))) r := by
  have hseq : Follows n (Reader.andThen p (fun w => Reader.done (v w))) (.seq [r]) :=
    hp.andThen (fun _ => .done (spells_seq_nil.mpr rfl)) productive_seq_nil
  exact hseq.imp (fun _ => spells_last.mp)

/-- A token that is taken goes in front of what follows it. -/
theorem branch {f : Token → Option (Reader α)}
    (hyes : ∀ t q, f t = some q → ∀ m < n, ∃ S, Follows m q S ∧ ∀ w, Spells S w → Spells r (t :: w))
    (hno : Follows n no r) : Follows n (Reader.branch f no) r := by
  intro ts hle
  cases ts with
  | nil => exact hno [] hle
  | cons t rest =>
      cases hf : f t with
      | none =>
          rw [FollowsAt, Reader.branch_none hf]
          exact hno (t :: rest) hle
      | some q =>
          rw [List.length_cons] at hle
          obtain ⟨S, hq, hcons⟩ := hyes t q hf rest.length (by omega)
          obtain ⟨pre, hrest, ⟨w, hw⟩, hspells⟩ := hq rest (Nat.le_refl _)
          rw [FollowsAt, Reader.branch_some hf]
          refine ⟨t :: pre, ?_, ⟨w, hcons _ hw⟩, ?_⟩
          · rw [List.cons_append, ← hrest]
          · intro v hv
            exact hcons _ (hspells v hv)

/-- A branch on a token: behind the token the input is shorter, and the token is put in front of the
    word. -/
theorem on {kind : Token.Kind} {k : Span → Reader α} (hyes : ∀ span, ∀ m < n, Follows m (k span) S)
    (hcons : ∀ span w, Spells S w → Spells r (⟨kind, span⟩ :: w)) (hno : Follows n no r) :
    Follows n (Reader.branch (Reader.on kind k) no) r := by
  refine .branch (fun t q hq m hm => ?_) hno
  unfold Reader.on at hq
  split at hq
  · next hkind =>
      cases hq
      cases hkind
      exact ⟨S, hyes t.span m hm, hcons t.span⟩
  · cases hq

/-- A branch on an operator of some level. -/
theorem onOp {level : Token.Kind → Option BinOp} {k : BinOp → Reader α}
    (hyes : ∀ op, ∀ m < n, Follows m (k op) S)
    (hcons : ∀ t op w, level t.kind = some op → Spells S w → Spells r (t :: w))
    (hno : Follows n no r) : Follows n (Reader.branch (Reader.onOp level k) no) r := by
  refine .branch (fun t q hq m hm => ?_) hno
  obtain ⟨op, hop, rfl⟩ := Option.map_eq_some_iff.mp hq
  exact ⟨S, hyes op m hm, fun w => hcons t op w hop⟩

theorem ahead {k : Option Token → Reader α} (hk : ∀ t, Follows n (k t) r) :
    Follows n (Reader.ahead k) r := by
  intro ts hle
  exact hk ts.head? ts hle

end Follows

end Definitions

/-! ## Parsers -/

section Expressions

variable {n : Nat}

/-- An expected token. -/
theorem follows_expect (n : Nat) {t : Terminal} {kind : Token.Kind} (h : t.Admits kind)
    (expected : Expectation) : Follows n (Reader.of (expect kind expected)) (.tok t) := by
  rw [of_expect]
  refine .on (S := .seq []) (fun _ _ _ => .done (spells_seq_nil.mpr rfl)) ?_ (.fail (productive_tok t))
  intro span w hw
  rw [spells_seq_nil.mp hw]
  exact spells_tok.mpr ⟨_, rfl, h⟩

theorem follows_mark (n : Nat) (p : Punct) (expected : Expectation) :
    Follows n (Reader.of (expect (.punct p) expected)) (.mark p) :=
  follows_expect n (t := .punct p) (Eq.refl _) expected

theorem follows_kw (n : Nat) (word : Keyword) (expected : Expectation) :
    Follows n (Reader.of (expect (.keyword word) expected)) (.kw word) :=
  follows_expect n (t := .keyword word) (Eq.refl _) expected

/-- A name. -/
theorem follows_identifier (n : Nat) : Follows n (Reader.of identifier) (.tok .ident) := by
  rw [of_identifier]
  refine .branch (fun t q hq m hm => ?_) (.fail (productive_tok _))
  unfold onName at hq
  split at hq
  · next x span =>
      cases hq
      refine ⟨.seq [], .done (spells_seq_nil.mpr rfl), fun w hw => ?_⟩
      rw [spells_seq_nil.mp hw]
      exact spells_ident.mpr ⟨x, span, rfl⟩
  · cases hq

/-- The name of a type. -/
theorem follows_typeName (n : Nat) : Follows n (Reader.of typeName) (.nt .type) := by
  rw [of_typeName]
  refine .branch (fun t q hq m hm => ?_) (.fail (productive_nt _))
  unfold onType at hq
  split at hq
  · next span =>
      cases hq
      refine ⟨.seq [], .done (spells_seq_nil.mpr rfl), fun w hw => ?_⟩
      rw [spells_seq_nil.mp hw]
      exact spells_type.mpr ⟨.integer, span, rfl⟩
  · next span =>
      cases hq
      refine ⟨.seq [], .done (spells_seq_nil.mpr rfl), fun w hw => ?_⟩
      rw [spells_seq_nil.mp hw]
      exact spells_type.mpr ⟨.boolean, span, rfl⟩
  · cases hq

section Rows

variable {level : Token.Kind → Option BinOp} {operand : (ts : List Token) → Outcome Expr ts.length}
  {tail : Expr → (ts : List Token) → Outcome Expr (ts.length + 1)} {opRhs operandRhs : Rhs}

/-- Operands behind operators of one level; a row may stop behind any operand, so its tail is a
    repetition. -/
theorem follows_rowTail (htail : ∀ left, tail left = rowNext level operand tail left)
    (hop : ∀ t op, level t.kind = some op → Spells opRhs [t])
    (h : Follows n (Reader.of operand) operandRhs) (left : Expr) :
    Follows n (Reader.of (tail left)) (.star (.seq [opRhs, operandRhs])) := by
  induction n using Nat.strongRecOn generalizing left with
  | ind n ih =>
      rw [htail left, of_rowNext]
      refine .onOp (S := .seq [operandRhs, .star (.seq [opRhs, operandRhs])])
        (fun op m hm => ?_) ?_ (.done (spells_star.mpr (.inl rfl)))
      · have hoperand := h.mono (Nat.le_of_lt hm)
        exact hoperand.andThen (fun right => (ih m hm hoperand (.join op left right)).last) (by simp)
      · intro t op w ht hw
        obtain ⟨u, v, rfl, hu, hv⟩ := spells_seq_cons.mp hw
        refine spells_star.mpr (.inr ⟨t :: u, v, rfl, ?_, spells_last.mp hv⟩)
        exact spells_seq_cons.mpr ⟨[t], u, rfl, hop t op ht, spells_last.mpr hu⟩

end Rows

/-- A row of factors. -/
theorem follows_product (h : Follows n (Reader.of factor) (.nt .factor)) :
    Follows n (Reader.of product) (.nt .term) := by
  have hop : ∀ t op, multiplicative? t.kind = some op → Spells mulOp [t] :=
    fun t op ht => spells_mulOp.mpr ⟨t, op, rfl, ht⟩
  rw [product_eq_rowStart, of_rowStart]
  have htail := follows_rowTail productTail_eq_rowNext hop h
  exact (h.andThen (fun left => (htail left).last) (by simp)).nt

/-- A row of terms. -/
theorem follows_sum (h : Follows n (Reader.of product) (.nt .term)) :
    Follows n (Reader.of sum) (.nt .simpleExpr) := by
  have hop : ∀ t op, additive? t.kind = some op → Spells addOp [t] :=
    fun t op ht => spells_addOp.mpr ⟨t, op, rfl, ht⟩
  rw [sum_eq_rowStart, of_rowStart]
  have htail := follows_rowTail sumTail_eq_rowNext hop h
  exact (h.andThen (fun left => (htail left).last) (by simp)).nt

/-- One comparison at most. -/
theorem follows_expression (h : Follows n (Reader.of sum) (.nt .simpleExpr)) :
    Follows n (Reader.of expression) (.nt .expr) := by
  rw [of_expression]
  refine .nt (h.andThen (fun left => .last ?_) (by simp))
  refine .onOp (S := .nt .simpleExpr) (fun op m hm => .map (h.mono (Nat.le_of_lt hm))) ?_
    (.done (spells_opt.mpr (.inl rfl)))
  intro t op w ht hw
  refine spells_opt.mpr (.inr (spells_seq_cons.mpr ⟨[t], w, rfl, ?_, spells_last.mpr hw⟩))
  exact spells_relOp.mpr ⟨t, op, rfl, ht⟩

/-- Items between marks. -/
theorem follows_list {α : Type} {p : Punct} {item : (ts : List Token) → Outcome α ts.length}
    {items : (ts : List Token) → Outcome (List α) ts.length} {r : Rhs}
    (hitems : items = listStep p item items) (h : Follows n (Reader.of item) r) :
    Follows n (Reader.of items) (.sepBy r p) := by
  induction n using Nat.strongRecOn with
  | ind n ih =>
      rw [hitems, of_listStep]
      refine h.andThen (fun first => .last ?_) (by simp)
      refine .on (S := .sepBy r p) (fun _ m hm => .map (ih m hm (h.mono (Nat.le_of_lt hm)))) ?_
        (.done (spells_star.mpr (.inl rfl)))
      intro span w hw
      obtain ⟨u, v, rfl, hu, hv⟩ := spells_seq_cons.mp hw
      refine spells_star.mpr (.inr ⟨⟨.punct p, span⟩ :: u, v, rfl, ?_, spells_last.mp hv⟩)
      exact spells_tok_cons.mpr ⟨_, u, rfl, rfl, spells_last.mpr hu⟩

/-- Arguments and the parenthesis behind them. -/
theorem follows_arguments (close : Expectation) (h : Follows n (Reader.of expression) (.nt .expr)) :
    Follows n (Reader.of (arguments close)) argsTail := by
  have hlist : Follows n (Reader.of expressions) (.nt .exprList) :=
    .nt (follows_list expressions_eq_listStep h)
  rw [of_arguments]
  refine .on (S := .seq []) (fun _ _ _ => .done (spells_seq_nil.mpr rfl)) ?_ ?_
  · intro span w hw
    rw [spells_seq_nil.mp hw]
    refine spells_seq_cons.mpr ⟨[], _, rfl, spells_opt.mpr (.inl rfl), ?_⟩
    exact spells_last.mpr (spells_mark.mpr ⟨span, rfl⟩)
  · refine .imp (hlist.andThen (fun _ => .last (.map (follows_mark n _ _))) (by simp)) ?_
    intro w hw
    obtain ⟨u, v, rfl, hu, hv⟩ := spells_seq_cons.mp hw
    exact spells_seq_cons.mpr ⟨u, v, rfl, spells_opt.mpr (.inr hu), hv⟩

/-- Factors, from what is known of fewer tokens. -/
theorem follows_factor
    (ih : ∀ m < n, Follows m (Reader.of factor) (.nt .factor) ∧
      Follows m (Reader.of expression) (.nt .expr)) :
    Follows n (Reader.of factor) (.nt .factor) := by
  rw [of_factor]
  refine .branch (fun t q hq m hm => ?_) (.fail (productive_nt _))
  obtain ⟨hfactor, hexpr⟩ := ih m hm
  unfold factorBehind at hq
  split at hq
  · cases hq
    refine ⟨.seq [], .done (spells_seq_nil.mpr rfl), fun w hw => ?_⟩
    rw [spells_seq_nil.mp hw]
    exact spells_factor.mpr .int
  · cases hq
    refine ⟨.seq [], .done (spells_seq_nil.mpr rfl), fun w hw => ?_⟩
    rw [spells_seq_nil.mp hw]
    exact spells_factor.mpr .true
  · cases hq
    refine ⟨.seq [], .done (spells_seq_nil.mpr rfl), fun w hw => ?_⟩
    rw [spells_seq_nil.mp hw]
    exact spells_factor.mpr .false
  · cases hq
    refine ⟨.opt (.seq [.mark .lparen, argsTail]), ?_, ?_⟩
    · refine .on (S := argsTail) (fun _ l hl => ?_) ?_ (.done (spells_opt.mpr (.inl rfl)))
      · exact .map (follows_arguments .callClose (hexpr.mono (Nat.le_of_lt hl)))
      · intro span w hw
        exact spells_opt.mpr (.inr (spells_tok_cons.mpr ⟨_, w, rfl, rfl, spells_last.mpr hw⟩))
    · intro w hw
      rcases spells_opt.mp hw with rfl | hw
      · exact spells_factor.mpr .var
      · obtain ⟨⟨_, opening⟩, u, rfl, rfl, hu⟩ := spells_tok_cons.mp hw
        exact spells_factor.mpr (.call (spells_last.mp hu))
  · cases hq
    refine ⟨_, hexpr.andThen (fun _ => .last (.map (follows_mark m _ _))) (by simp), fun w hw => ?_⟩
    obtain ⟨u, v, rfl, hu, hv⟩ := spells_seq_cons.mp hw
    obtain ⟨stop, rfl⟩ := spells_mark.mp (spells_last.mp hv)
    exact spells_factor.mpr (.paren hu)
  · cases hq
    exact ⟨_, .map hfactor, fun w hw => spells_factor.mpr (.not hw)⟩
  · cases hq

/-- Expressions follow the grammar, by induction on the number of tokens. -/
theorem follows_exprs (n : Nat) : Follows n (Reader.of factor) (.nt .factor) ∧
    Follows n (Reader.of expression) (.nt .expr) := by
  induction n using Nat.strongRecOn with
  | ind n ih =>
      have hfactor := follows_factor ih
      exact ⟨hfactor, follows_expression (follows_sum (follows_product hfactor))⟩

theorem follows_expr (n : Nat) : Follows n (Reader.of expression) (.nt .expr) :=
  (follows_exprs n).2

theorem follows_args (n : Nat) (close : Expectation) :
    Follows n (Reader.of (arguments close)) argsTail :=
  follows_arguments close (follows_expr n)

end Expressions

section Statements

variable {n : Nat}

/-- What stands behind the name of an assignment or a call. -/
abbrev assignOrCallTail : Rhs := .alt [.seq [.op .assign, .nt .expr], .seq [.mark .lparen, argsTail]]

/-- What stands behind a name at the start of a statement. -/
theorem follows_assignOrCall (n : Nat) (name : Ident) :
    Follows n (Reader.of (assignOrCall name)) assignOrCallTail := by
  have hprod : Productive assignOrCallTail := productive_alt List.mem_cons_self (by simp)
  rw [of_assignOrCall]
  refine .on (S := .nt .expr) (fun _ m _ => .map (follows_expr m)) ?_ ?_
  · intro arrow w hw
    refine spells_alt.mpr ⟨_, List.mem_cons_self, ?_⟩
    exact spells_tok_cons.mpr ⟨_, w, rfl, rfl, spells_last.mpr hw⟩
  · refine .on (S := argsTail) (fun _ m _ => .map (follows_args m _)) ?_ (.fail hprod)
    intro opening w hw
    refine spells_alt.mpr ⟨_, List.mem_cons_of_mem _ List.mem_cons_self, ?_⟩
    exact spells_tok_cons.mpr ⟨_, w, rfl, rfl, spells_last.mpr hw⟩

/-- A `return` may have no value. -/
theorem follows_returned (n : Nat) (start : Span) :
    Follows n (Reader.of (returned start)) (.opt (.nt .expr)) := by
  rw [of_returned]
  refine .ahead (fun t => ?_)
  split
  · exact .done (spells_opt.mpr (.inl rfl))
  · exact .map ((follows_expr n).imp (fun _ hw => spells_opt.mpr (.inr hw)))

/-- The arguments of a `writeln`. -/
theorem follows_written (n : Nat) (start : Span) :
    Follows n (Reader.of (written start)) (.seq [.mark .lparen, argsTail]) := by
  rw [of_written]
  exact (follows_mark n _ _).andThen (fun _ => .last (.map (follows_args n _))) (by simp)

/-- An `if` behind its keyword. -/
abbrev ifTail : Rhs :=
  .seq [.nt .expr, .kw .then, .nt .block, .opt (.seq [.kw .else, .nt .block])]

/-- A `while` behind its keyword. -/
abbrev whileTail : Rhs := .seq [.nt .expr, .kw .do, .nt .block]

/-- The choice of a statement by its rule. -/
theorem spells_stmt_of {m : NonTerminal} {ts : List Token}
    (hm : .nt m ∈ [Rhs.nt .assign, .nt .call, .nt .if, .nt .while, .kw .break, .kw .continue,
      .nt .return, .nt .write]) (h : Spells (rule m) ts) : Spells (.nt .stmt) ts :=
  spells_nt.mpr (spells_alt.mpr ⟨.nt m, hm, spells_nt.mpr h⟩)

/-- Statements, from what is known of blocks with fewer tokens. -/
theorem follows_statement (ih : ∀ m < n, Follows m (Reader.of block) (.nt .block)) :
    Follows n (Reader.of statement) (.nt .stmt) := by
  rw [of_statement]
  refine .branch (fun t q hq m hm => ?_) (.fail (productive_nt _))
  have hblock := ih m hm
  unfold statementBehind at hq
  split at hq
  · next x span =>
      cases hq
      refine ⟨_, follows_assignOrCall m _, fun w hw => ?_⟩
      obtain ⟨r, hr, hw⟩ := spells_alt.mp hw
      simp only [List.mem_cons, List.not_mem_nil, or_false] at hr
      rcases hr with rfl | rfl
      · obtain ⟨⟨_, arrow⟩, u, rfl, rfl, hu⟩ := spells_tok_cons.mp hw
        exact spells_stmt.mpr (.assign (spells_last.mp hu))
      · obtain ⟨⟨_, opening⟩, u, rfl, rfl, hu⟩ := spells_tok_cons.mp hw
        exact spells_stmt.mpr (.call (spells_last.mp hu))
  · cases hq
    refine ⟨_, follows_returned m _, fun w hw => spells_stmt_of (m := .return) (by simp) ?_⟩
    exact spells_tok_cons.mpr ⟨_, w, rfl, rfl, spells_last.mpr hw⟩
  · cases hq
    refine ⟨ifTail, ?_, fun w hw => spells_stmt_of (m := .if) (by simp) ?_⟩
    · refine (follows_expr m).andThen (fun cond => ?_) (by simp)
      refine (follows_kw m _ _).andThen (fun _ => ?_) (by simp)
      refine hblock.andThen (fun yes => .last ?_) (by simp)
      refine .on (S := .nt .block) (fun _ l hl => .map (hblock.mono (Nat.le_of_lt hl))) ?_
        (.done (spells_opt.mpr (.inl rfl)))
      intro mid w hw
      exact spells_opt.mpr (.inr (spells_tok_cons.mpr ⟨_, w, rfl, rfl, spells_last.mpr hw⟩))
    · exact spells_tok_cons.mpr ⟨_, w, rfl, rfl, hw⟩
  · cases hq
    refine ⟨whileTail, ?_, fun w hw => spells_stmt_of (m := .while) (by simp) ?_⟩
    · refine (follows_expr m).andThen (fun cond => ?_) (by simp)
      exact (follows_kw m _ _).andThen (fun _ => .last (.map hblock)) (by simp)
    · exact spells_tok_cons.mpr ⟨_, w, rfl, rfl, hw⟩
  · cases hq
    refine ⟨.seq [], .done (spells_seq_nil.mpr rfl), fun w hw => ?_⟩
    rw [spells_seq_nil.mp hw]
    exact spells_stmt.mpr .break
  · cases hq
    refine ⟨.seq [], .done (spells_seq_nil.mpr rfl), fun w hw => ?_⟩
    rw [spells_seq_nil.mp hw]
    exact spells_stmt.mpr .continue
  · cases hq
    refine ⟨_, follows_written m _, fun w hw => ?_⟩
    obtain ⟨⟨_, opening⟩, u, rfl, rfl, hu⟩ := spells_tok_cons.mp hw
    exact spells_stmt.mpr (.write (spells_last.mp hu))
  · cases hq

/-- Statements up to the `end` of their block, with empty ones in between. -/
theorem follows_statements (h : Follows n (Reader.of statement) (.nt .stmt)) :
    Follows n (Reader.of statements) stmtsTail := by
  induction n using Nat.strongRecOn with
  | ind n ih =>
      have hmore : ∀ m < n, Follows m (Reader.of statements) stmtsTail :=
        fun m hm => ih m hm (h.mono (Nat.le_of_lt hm))
      have hnone : Spells (.opt (.nt .stmt)) [] := spells_opt.mpr (.inl rfl)
      rw [of_statements]
      refine .on (S := .seq []) (fun _ _ _ => .done (spells_seq_nil.mpr rfl)) ?_ ?_
      · intro stop w hw
        rw [spells_seq_nil.mp hw]
        exact spells_stmtsTail.mpr (.last hnone)
      · refine .on (S := stmtsTail) (fun _ m hm => hmore m hm) ?_ ?_
        · intro span w hw
          exact spells_stmtsTail.mpr (.next hnone hw)
        -- behind a statement stands a semicolon and more, or the end
        · refine .imp (S := .seq [.nt .stmt, .alt [.seq [.mark .semicolon, stmtsTail], .kw .end]])
            (h.andThen (fun first => .last ?_) ?_) ?_
          · refine .on (S := stmtsTail) (fun _ m hm => .map (hmore m hm)) ?_ ?_
            · intro span w hw
              refine spells_alt.mpr ⟨_, List.mem_cons_self, ?_⟩
              exact spells_tok_cons.mpr ⟨_, w, rfl, rfl, spells_last.mpr hw⟩
            · refine .imp (.map (follows_kw n _ _)) (fun w hw => ?_)
              exact spells_alt.mpr ⟨_, List.mem_cons_of_mem _ List.mem_cons_self, hw⟩
          · have hprod : Productive (.alt [.seq [.mark .semicolon, stmtsTail], .kw .end]) :=
              productive_alt List.mem_cons_self (by simp)
            simp [hprod]
          · intro w hw
            obtain ⟨u, v, rfl, hu, hv⟩ := spells_seq_cons.mp hw
            obtain ⟨r, hr, hv⟩ := spells_alt.mp (spells_last.mp hv)
            simp only [List.mem_cons, List.not_mem_nil, or_false] at hr
            rcases hr with rfl | rfl
            · obtain ⟨⟨_, span⟩, z, rfl, rfl, hz⟩ := spells_tok_cons.mp hv
              exact spells_stmtsTail.mpr (.next (spells_opt.mpr (.inr hu)) (spells_last.mp hz))
            · obtain ⟨stop, rfl⟩ := spells_kw.mp hv
              exact spells_stmtsTail.mpr (.last (spells_opt.mpr (.inr hu)))

/-- Blocks follow the grammar, by induction on the number of tokens. -/
theorem follows_block (n : Nat) : Follows n (Reader.of block) (.nt .block) := by
  induction n using Nat.strongRecOn with
  | ind n ih =>
      have hstatements := follows_statements (follows_statement ih)
      rw [of_block]
      refine .imp (S := .seq [.kw .begin, stmtsTail]) ?_ (fun w hw => ?_)
      · exact (follows_kw n _ _).andThen (fun _ => .last (.map hstatements)) (by simp)
      · obtain ⟨⟨_, start⟩, u, rfl, rfl, hu⟩ := spells_tok_cons.mp hw
        exact spells_nt.mpr (spells_tok_cons.mpr ⟨_, u, rfl, rfl, spells_last.mp hu⟩)

end Statements

section Programs

theorem follows_names (n : Nat) : Follows n (Reader.of names) (.nt .varList) :=
  .nt (follows_list names_eq_listStep (follows_identifier n))

theorem follows_varLine (n : Nat) : Follows n (Reader.of varLine) varLineRhs := by
  rw [of_varLine]
  refine .ahead (fun t => (follows_names n).andThen (fun declared => ?_) (by simp))
  refine (follows_mark n _ _).andThen (fun _ => ?_) (by simp)
  exact (follows_typeName n).andThen (fun ty => .last (.map (follows_mark n _ _))) (by simp)

/-- Lines of variables, at least one. -/
theorem follows_varLines (n : Nat) : Follows n (Reader.of varLines) (.plus varLineRhs) := by
  induction n using Nat.strongRecOn with
  | ind n ih =>
      rw [of_varLines]
      refine (follows_varLine n).andThen_shorter (fun first m hm => .last (.ahead (fun t => ?_)))
        (by simp)
      split
      · refine .imp (.map (ih m hm)) (fun w hw => ?_)
        obtain ⟨u, v, rfl, hu, hv⟩ := spells_seq_cons.mp hw
        exact spells_star.mpr (.inr ⟨u, v, rfl, hu, spells_last.mp hv⟩)
      · exact .done (spells_star.mpr (.inl rfl))

/-- Sections of variables, each behind its `var`. -/
theorem follows_varSections (n : Nat) :
    Follows n (Reader.of varSections) (.star varSectionRhs) := by
  induction n using Nat.strongRecOn with
  | ind n ih =>
      rw [of_varSections]
      refine .on (S := .seq [.plus varLineRhs, .star varSectionRhs]) (fun _ m hm => ?_) ?_
        (.done (spells_star.mpr (.inl rfl)))
      · exact (follows_varLines m).andThen (fun lines => .last (.map (ih m hm))) (by simp)
      · intro span w hw
        obtain ⟨u, v, rfl, hu, hv⟩ := spells_seq_cons.mp hw
        refine spells_star.mpr (.inr ⟨⟨.keyword .var, span⟩ :: u, v, rfl, ?_, spells_last.mp hv⟩)
        exact spells_tok_cons.mpr ⟨_, u, rfl, rfl, spells_last.mpr hu⟩

theorem follows_param (n : Nat) : Follows n (Reader.of param) (.nt .param) := by
  rw [of_param]
  refine .nt (.ahead (fun t => (follows_names n).andThen (fun declared => ?_) (by simp)))
  exact (follows_mark n _ _).andThen (fun _ => .last (.map (follows_typeName n))) (by simp)

/-- Parameters and the parenthesis behind them. -/
theorem follows_params (n : Nat) : Follows n (Reader.of params) paramsTail := by
  have hlist : Follows n (Reader.of paramGroups) (.nt .paramList) :=
    .nt (follows_list paramGroups_eq_listStep (follows_param n))
  rw [of_params]
  refine .on (S := .seq []) (fun _ _ _ => .done (spells_seq_nil.mpr rfl)) ?_ ?_
  · intro span w hw
    rw [spells_seq_nil.mp hw]
    refine spells_seq_cons.mpr ⟨[], _, rfl, spells_opt.mpr (.inl rfl), ?_⟩
    exact spells_last.mpr (spells_mark.mpr ⟨span, rfl⟩)
  · refine .imp (hlist.andThen (fun _ => .last (.map (follows_mark n _ _))) (by simp)) (fun w hw => ?_)
    obtain ⟨u, v, rfl, hu, hv⟩ := spells_seq_cons.mp hw
    exact spells_seq_cons.mpr ⟨u, v, rfl, spells_opt.mpr (.inr hu), hv⟩

theorem follows_procedureParams (n : Nat) : Follows n (Reader.of procedureParams) procParamsRhs := by
  rw [of_procedureParams]
  refine .on (S := paramsTail) (fun _ m _ => follows_params m) ?_ (.done (spells_opt.mpr (.inl rfl)))
  intro span w hw
  exact spells_opt.mpr (.inr (spells_tok_cons.mpr ⟨_, w, rfl, rfl, hw⟩))

/-- What stands behind the word `procedure`. -/
theorem follows_procedure (n : Nat) (start : Span) :
    Follows n (Reader.of (procedure start)) procTail := by
  rw [of_procedure]
  refine (follows_identifier n).andThen (fun name => ?_) (by simp)
  refine (follows_procedureParams n).andThen (fun groups => ?_) (by simp)
  refine (follows_mark n _ _).andThen (fun _ => ?_) (by simp)
  exact (follows_block n).andThen (fun body => .last (.map (follows_mark n _ _))) (by simp)

/-- What stands behind the word `function`. -/
theorem follows_function (n : Nat) (start : Span) :
    Follows n (Reader.of (function start)) funcTail := by
  have hbehind : Follows n (Reader.of (function start)) (.seq [.tok .ident, .mark .lparen, paramsTail,
      .mark .colon, .nt .type, .mark .semicolon, .nt .block, .mark .semicolon]) := by
    rw [of_function]
    refine (follows_identifier n).andThen (fun name => ?_) (by simp)
    refine (follows_mark n _ _).andThen (fun _ => ?_) (by simp)
    refine (follows_params n).andThen (fun groups => ?_) (by simp)
    refine (follows_mark n _ _).andThen (fun _ => ?_) (by simp)
    refine (follows_typeName n).andThen (fun ty => ?_) (by simp)
    refine (follows_mark n _ _).andThen (fun _ => ?_) (by simp)
    exact (follows_block n).andThen (fun body => .last (.map (follows_mark n _ _))) (by simp)
  refine hbehind.imp (fun w hw => ?_)
  -- the parameters bring their closing parenthesis along
  obtain ⟨a, w₁, rfl, ha, hw₁⟩ := spells_seq_cons.mp hw
  obtain ⟨b, w₂, rfl, hb, hw₂⟩ := spells_seq_cons.mp hw₁
  obtain ⟨u, w₃, rfl, hu, hw₃⟩ := spells_seq_cons.mp hw₂
  obtain ⟨c, d, rfl, hc, hd⟩ := spells_seq_cons.mp hu
  refine spells_seq_cons.mpr ⟨a, _, rfl, ha, spells_seq_cons.mpr ⟨b, _, rfl, hb, ?_⟩⟩
  rw [List.append_assoc]
  exact spells_seq_cons.mpr ⟨c, _, rfl, hc, spells_seq_cons.mpr ⟨d, w₃, rfl, spells_last.mp hd, hw₃⟩⟩

/-- Routines, each behind its word. -/
theorem follows_routines (n : Nat) : Follows n (Reader.of routines) (.star routineRhs) := by
  induction n using Nat.strongRecOn with
  | ind n ih =>
      rw [of_routines]
      refine .on (S := .seq [procTail, .star routineRhs]) (fun start m hm => ?_) ?_ ?_
      · exact (follows_procedure m start).andThen (fun first => .last (.map (ih m hm))) (by simp)
      · intro start w hw
        obtain ⟨u, v, rfl, hu, hv⟩ := spells_seq_cons.mp hw
        refine spells_star.mpr (.inr ⟨⟨.keyword .procedure, start⟩ :: u, v, rfl, ?_,
          spells_last.mp hv⟩)
        exact spells_routine.mpr (.inl ⟨start, u, rfl, hu⟩)
      · refine .on (S := .seq [funcTail, .star routineRhs]) (fun start m hm => ?_) ?_
          (.done (spells_star.mpr (.inl rfl)))
        · exact (follows_function m start).andThen (fun first => .last (.map (ih m hm))) (by simp)
        · intro start w hw
          obtain ⟨u, v, rfl, hu, hv⟩ := spells_seq_cons.mp hw
          refine spells_star.mpr (.inr ⟨⟨.keyword .function, start⟩ :: u, v, rfl, ?_,
            spells_last.mp hv⟩)
          exact spells_routine.mpr (.inr ⟨start, u, rfl, hu⟩)

/-- **Programs follow the grammar**: what is taken is the start of a program. -/
theorem follows_program (n : Nat) : Follows n (Reader.of program) (.nt .program) := by
  have hparts : Follows n (Reader.of program) (.seq [.star varSectionRhs, .star routineRhs, .nt .block,
      .mark .dot]) := by
    rw [of_program]
    refine .ahead (fun t => (follows_varSections n).andThen (fun vars => ?_) (by simp))
    refine (follows_routines n).andThen (fun subs => (follows_block n).andThen (fun main => ?_)
      (by simp)) (by simp)
    exact .last (.map (follows_mark n _ _))
  refine hparts.imp (fun w hw => ?_)
  obtain ⟨u, w₁, rfl, hu, hw₁⟩ := spells_seq_cons.mp hw
  obtain ⟨v, w₂, rfl, hv, hw₂⟩ := spells_seq_cons.mp hw₁
  obtain ⟨b, w₃, rfl, hb, hw₃⟩ := spells_seq_cons.mp hw₂
  obtain ⟨stop, rfl⟩ := spells_mark.mp (spells_last.mp hw₃)
  exact spells_program.mpr ⟨u, v, b, stop, hu, hv, hb, rfl⟩

end Programs

end Grammar

/-! ## The first token that does not fit -/

open TinyPascal.Grammar TinyPascal.Parser

namespace Stream

variable {s : Stream} {e : SyntaxError}

/-- A program is rejected where the parser of programs stops. -/
theorem next_eq_error :
    s.next.1 = .error e ↔
      ∃ expected rest, Reader.of program s.tokens = (.error expected, rest) ∧
        e = reject ⟨rest, s.finish⟩ expected := by
  unfold next Reader.of
  cases program s.tokens with
  | ok p => simp [result]
  | error f =>
      constructor
      · rintro ⟨⟩
        exact ⟨f.expected, f.rest, rfl, rfl⟩
      · rintro ⟨expected, rest, hread, rfl⟩
        cases hread
        rfl

/-- Written out, a stream starts with its head. -/
theorem toList_eq_cons (s : Stream) : ∃ more, s.toList = s.head :: more := by
  obtain ⟨tokens, finish⟩ := s
  cases tokens with
  | nil => exact ⟨[], rfl⟩
  | cons t r => exact ⟨r ++ [⟨.eof, finish⟩], rfl⟩

/-- Where the reading fails, the tokens that were taken can go on to a sentence, and with the same token
    behind them, or none, it fails in the same way. -/
theorem next_error_taken (h : s.next.1 = .error e) :
    ∃ pre rest expected, s.tokens = pre ++ rest ∧ s.next.2 = ⟨rest, s.finish⟩ ∧
      e = reject ⟨rest, s.finish⟩ expected ∧ (∃ w, Sentence (pre.map Token.kind ++ w)) ∧
      ∀ rest', next? rest' = next? rest →
        Reader.of program (pre ++ rest') = (.error expected, rest') := by
  obtain ⟨expected, rest, hread, rfl⟩ := next_eq_error.mp h
  have hleft : s.next.2 = ⟨rest, s.finish⟩ := by
    unfold next
    unfold Reader.of at hread
    cases hprogram : program s.tokens with
    | ok p =>
        rw [hprogram] at hread
        cases hread
    | error f =>
        rw [hprogram] at hread
        cases hread
        rfl
  obtain ⟨pre, htokens, ⟨more, hmore⟩, _⟩ := follows_program _ s.tokens (Nat.le_refl _)
  obtain ⟨pre', htokens', hsame⟩ := oneAhead_program _ s.tokens (Nat.le_refl _)
  rw [hread] at htokens htokens' hsame
  have hpre : pre' = pre := List.append_cancel_right (htokens'.symm.trans htokens)
  subst hpre
  refine ⟨pre', rest, expected, htokens, hleft, rfl, ⟨more.map Token.kind, ?_⟩, hsame⟩
  rw [← List.map_append]
  exact hmore

/-- Where the reading fails, the tokens that were taken can go on to a sentence, and the next one, which
    is the one that is rejected, cannot follow them in any. -/
theorem next_error_misfit (h : s.next.1 = .error e) :
    ∃ pre t more, s.toList = pre ++ t :: more ∧ e.span = t.span ∧ e.found = t.kind.text ∧
      (∃ w, Sentence (pre.map Token.kind ++ w)) ∧
      ¬ ∃ w, Sentence (pre.map Token.kind ++ t.kind :: w) := by
  obtain ⟨pre, rest, expected, htokens, _, rfl, hviable, hsame⟩ := next_error_taken h
  obtain ⟨behind, hbehind⟩ := toList_eq_cons ⟨rest, s.finish⟩
  refine ⟨pre, head ⟨rest, s.finish⟩, behind, ?_, rfl, rfl, hviable, ?_⟩
  · rw [← hbehind, toList, htokens, List.append_assoc]
    rfl
  · rintro ⟨w, hw⟩
    cases rest with
    | nil => exact hw.ne_eof (List.mem_append_right _ List.mem_cons_self)
    | cons t r =>
        -- the sentence as tokens: it is read, but the reading must fail at the same token again
        have hsentence : Sentence ((pre ++ t :: w.map (Token.mk · {})).map Token.kind) := by
          rw [List.map_append, List.map_cons, List.map_map]
          simpa [Function.comp_def, head] using hw
        obtain ⟨tree, hnext⟩ := next_of_sentence hsentence
        have hok := hnext [] s.finish
        rw [List.append_nil] at hok
        have hfail := hsame (t :: w.map (Token.mk · {})) rfl
        have herror := next_eq_error (s := ⟨pre ++ t :: w.map (Token.mk · {}), s.finish⟩) |>.mpr
          ⟨expected, _, hfail, rfl⟩
        rw [hok] at herror
        cases herror

end Stream

/-- **A syntax error names the first token that cannot go on.** Where the reading of a list of tokens
    fails, the error has the place and the text of one token of the list, with its end written behind it
    if it has none. The tokens in front of that one start some sentence; together with it they start
    none. -/
theorem reject_at_first_misfit (ts : List Token) (e : SyntaxError)
    (h : Program.ofTokens? ts = some (.error e)) :
    ∃ (s : Stream) (k : Nat) (t : Token), Stream.ofTokens? ts = some s ∧
      (s.toList = ts ∨ s.tokens = ts) ∧ s.toList[k]? = some t ∧
      e.span = t.span ∧ e.found = t.kind.text ∧
      (∃ w, Sentence ((s.toList.take k).map Token.kind ++ w)) ∧
      ¬ ∃ w, Sentence ((s.toList.take (k + 1)).map Token.kind ++ w) := by
  obtain ⟨s, hs, hnext⟩ := Option.map_eq_some_iff.mp h
  obtain ⟨pre, t, more, hlist, hspan, hfound, hviable, hmisfit⟩ := Stream.next_error_misfit hnext
  refine ⟨s, pre.length, t, hs, Stream.ofTokens?_cases hs, ?_, hspan, hfound, ?_, ?_⟩
  · rw [hlist, List.getElem?_append_right (Nat.le_refl _), Nat.sub_self]
    rfl
  · rw [hlist, List.take_left]
    exact hviable
  · have htake : s.toList.take (pre.length + 1) = pre ++ [t] := by
      rw [hlist, List.append_cons]
      exact List.take_left' (by simp)
    rw [htake, List.map_append]
    simp only [List.append_assoc]
    exact hmisfit

/-- The tokens of `begin x := 1 < 2 < 3 end.`: comparisons do not chain. -/
def chained : List Token :=
  [⟨.keyword .begin, ⟨0, 5, 1, 1⟩⟩, ⟨.ident "x", ⟨6, 7, 1, 7⟩⟩, ⟨.operator .assign, ⟨8, 10, 1, 9⟩⟩,
    ⟨.int 1, ⟨11, 12, 1, 12⟩⟩, ⟨.operator .lt, ⟨13, 14, 1, 14⟩⟩, ⟨.int 2, ⟨15, 16, 1, 16⟩⟩,
    ⟨.operator .lt, ⟨17, 18, 1, 18⟩⟩, ⟨.int 3, ⟨19, 20, 1, 20⟩⟩, ⟨.keyword .end, ⟨21, 24, 1, 22⟩⟩,
    ⟨.punct .dot, ⟨24, 25, 1, 25⟩⟩]

/-- The second comparison is rejected: a program may start as the first one does, but not go on with
    another. -/
theorem reject_at_first_misfit_chained :
    (∃ e, Program.ofTokens? chained = some (.error e) ∧ e.span = ⟨17, 18, 1, 18⟩ ∧ e.found = "<") ∧
      (∃ w, Sentence ((chained.take 6).map Token.kind ++ w)) ∧
      ¬ ∃ w, Sentence ((chained.take 7).map Token.kind ++ w) := by
  have herror : Program.ofTokens? chained = some (.error ⟨"'end'", "<", ⟨17, 18, 1, 18⟩⟩) := by
    have hfound : (Program.ofTokens? chained).bind (fun read => match read with
        | .ok _ => none
        | .error e => some e) =
        some ⟨"'end'", "<", ⟨17, 18, 1, 18⟩⟩ := by decide +kernel
    obtain ⟨read, hread, he⟩ := Option.bind_eq_some_iff.mp hfound
    cases read with
    | ok tree => cases he
    | error e =>
        cases he
        exact hread
  obtain ⟨s, k, t, hs, _, ht, hspan, _, hviable, hmisfit⟩ := reject_at_first_misfit chained _ herror
  have hstream : Stream.ofTokens? chained = some ⟨chained, ⟨25, 25, 1, 26⟩⟩ := by decide
  cases hs.symm.trans hstream
  -- no other token stands at the place of the error
  have honly : ∀ i < 11, (Stream.mk chained ⟨25, 25, 1, 26⟩).toList[i]?.map Token.span =
      some ⟨17, 18, 1, 18⟩ → i = 6 := by decide
  have hk : k = 6 := by
    obtain ⟨hlt, _⟩ := List.getElem?_eq_some_iff.mp ht
    refine honly k hlt ?_
    rw [ht, Option.map_some, ← hspan]
  subst hk
  exact ⟨⟨_, herror, rfl, rfl⟩, hviable, hmisfit⟩

end TinyPascal
