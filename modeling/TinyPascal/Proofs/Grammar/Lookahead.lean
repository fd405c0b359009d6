import TinyPascal.Proofs.Grammar.Readers

/-!
# `Proofs.Grammar.Lookahead` — every parser looks one token ahead

A reader **looks one token ahead** if it takes a front part of the tokens, and of those that it leaves
only the first one has an influence on its result. An end-of-stream token has none: it is like the end of
the list. All readers that parsers are put together from look one token ahead, so every parser does, also
when it fails.

## Contents
- **The next token.** `next?`: none at an end-of-stream token.
- **One token ahead.** `OneAheadAt`, and `OneAhead n`, on at most `n` tokens, for the recursion. One lemma
  for each way to put readers together.
- **Parsers.** From single tokens to `oneAhead_program`, by induction on the number of tokens.
-/

namespace TinyPascal
namespace Parser

open Reader

/-! ## The next token -/

/-- The next token; none at the end of the list or in front of an end-of-stream token. -/
def next? (ts : List Token) : Option Token :=
  ts.head?.filter (fun t => t.kind ≠ .eof)

theorem next?_eof (span : Span) (ts : List Token) : next? (⟨.eof, span⟩ :: ts) = none := rfl

/-- Where there is no next token, the list is at its end or at an end-of-stream token. -/
theorem next?_eq_none {ts : List Token} (h : next? ts = none) :
    ts = [] ∨ ∃ span r, ts = ⟨.eof, span⟩ :: r := by
  cases ts with
  | nil => exact .inl rfl
  | cons t r =>
      obtain ⟨kind, span⟩ := t
      have hkind : kind = .eof := by simpa [next?] using h
      subst hkind
      exact .inr ⟨span, r, rfl⟩

/-- The next token is the head of the list, and no end of file. -/
theorem next?_eq_some {ts : List Token} {t : Token} (h : next? ts = some t) :
    t.kind ≠ .eof ∧ ∃ r, ts = t :: r := by
  obtain ⟨hhead, hkind⟩ := Option.filter_eq_some_iff.mp h
  exact ⟨of_decide_eq_true hkind, List.head?_eq_some_iff.mp hhead⟩

/-- The token ahead of a front part does not change if only what is behind the next one does. -/
theorem next?_append_congr {pre rest rest' : List Token} (h : next? rest = next? rest') :
    next? (pre ++ rest) = next? (pre ++ rest') := by
  cases pre with
  | nil => exact h
  | cons t pre => rfl

/-! ## One token ahead -/

section Definitions

variable {α β : Type}

/-- The reader takes a front part of the tokens, and on every list that starts with this part and goes on
    with the same token it does the same. -/
def OneAheadAt (p : Reader α) (ts : List Token) : Prop :=
  ∃ pre, ts = pre ++ (p ts).2 ∧
    ∀ rest, next? rest = next? (p ts).2 → p (pre ++ rest) = ((p ts).1, rest)

/-- The reader looks one token ahead on at most `n` tokens. -/
def OneAhead (n : Nat) (p : Reader α) : Prop :=
  ∀ ts, ts.length ≤ n → OneAheadAt p ts

/-- A branch that is not taken, because of the next token or because there is none. -/
theorem branch_of_next? {f : Token → Option (Reader α)} {no : Reader α} {ts : List Token}
    (hend : ∀ span, f ⟨.eof, span⟩ = none) (h : ∀ t, next? ts = some t → f t = none) :
    branch f no ts = no ts := by
  cases hnext : next? ts with
  | none =>
      rcases next?_eq_none hnext with rfl | ⟨span, r, rfl⟩
      · rfl
      · exact branch_none (hend span)
  | some t =>
      obtain ⟨_, r, rfl⟩ := next?_eq_some hnext
      exact branch_none (h t hnext)

/-- A reader waiting for another token than the end of file does not go on at one. -/
theorem on_eof {kind : Token.Kind} {k : Span → Reader α} (h : kind ≠ .eof) (span : Span) :
    on kind k ⟨.eof, span⟩ = none :=
  if_neg h.symm

namespace OneAhead

variable {n : Nat} {p : Reader β} {k : β → Reader α} {f : Token → Option (Reader α)} {no : Reader α}

/-- What is read with one token of lookahead up to `n` tokens is so up to fewer. -/
theorem mono {m : Nat} {p : Reader α} (h : OneAhead n p) (hle : m ≤ n) : OneAhead m p := by
  intro ts hts
  exact h ts (Nat.le_trans hts hle)

theorem done {v : α} : OneAhead n (Reader.done v) := by
  intro ts _
  exact ⟨[], rfl, fun rest _ => rfl⟩

theorem fail {e : Expectation} : OneAhead n (Reader.fail (α := α) e) := by
  intro ts _
  exact ⟨[], rfl, fun rest _ => rfl⟩

/-- Two readings in a row, of which the second starts where the first one ended. -/
theorem andThen_of (hp : OneAhead n p)
    (hk : ∀ ts v r, ts.length ≤ n → p ts = (.ok v, r) → OneAheadAt (k v) r) :
    OneAhead n (andThen p k) := by
  intro ts hle
  obtain ⟨pre, hts, hsame⟩ := hp ts hle
  cases hres : p ts with
  | mk found r =>
      rw [hres] at hts hsame
      cases found with
      | error e =>
          have hrun : andThen p k ts = (.error e, r) := by simp only [andThen, hres]
          rw [OneAheadAt, hrun]
          refine ⟨pre, hts, fun rest hrest => ?_⟩
          simp only [andThen, hsame rest hrest]
      | ok v =>
          have hrun : andThen p k ts = k v r := by simp only [andThen, hres]
          obtain ⟨pre', hr, hsame'⟩ := hk ts v r hle hres
          rw [OneAheadAt, hrun]
          refine ⟨pre ++ pre', ?_, fun rest hrest => ?_⟩
          · rw [List.append_assoc, ← hr]
            exact hts
          -- in front of the second part the first one sees the same token
          · have hnext : next? (pre' ++ rest) = next? r := by
              rw [next?_append_congr hrest, ← hr]
            rw [List.append_assoc]
            simp only [andThen, hsame _ hnext, hsame' rest hrest]

/-- In a sequence, the first part sees at most the token behind it, which the second part starts with. -/
theorem andThen (hp : OneAhead n p) (hk : ∀ v, OneAhead n (k v)) : OneAhead n (andThen p k) := by
  refine hp.andThen_of (fun ts v r hle hres => hk v r ?_)
  obtain ⟨pre, hts, _⟩ := hp ts hle
  rw [hres] at hts
  have hlen : ts.length = (pre ++ r).length := congrArg List.length hts
  rw [List.length_append] at hlen
  omega

/-- Behind a parser that has taken a token, fewer tokens are left. -/
theorem andThen_shorter {g : (ts : List Token) → Outcome β ts.length} (hp : OneAhead n (Reader.of g))
    (hk : ∀ v, ∀ m < n, OneAhead m (k v)) : OneAhead n (Reader.andThen (Reader.of g) k) := by
  refine hp.andThen_of (fun ts v r hle hres => ?_)
  have hshort := shorter_of hres
  exact hk v r.length (by omega) r (Nat.le_refl _)

/-- A reader that takes no token goes on with `no` on every list with the same next token. -/
theorem branch_not_taken {ts : List Token} (hend : ∀ span, f ⟨.eof, span⟩ = none)
    (h : ∀ t, next? ts = some t → f t = none) (hno : OneAheadAt no ts) :
    OneAheadAt (Reader.branch f no) ts := by
  obtain ⟨pre, hts, hsame⟩ := hno
  rw [OneAheadAt, branch_of_next? hend h]
  refine ⟨pre, hts, fun rest hrest => ?_⟩
  have hnext : next? (pre ++ rest) = next? ts := by
    rw [next?_append_congr hrest, ← hts]
  rw [branch_of_next? hend (by rwa [hnext]), hsame rest hrest]

/-- A token that is taken leaves fewer tokens, and one that is not taken is still the next one. -/
theorem branch (hend : ∀ span, f ⟨.eof, span⟩ = none)
    (hyes : ∀ t q, f t = some q → ∀ m < n, OneAhead m q) (hno : OneAhead n no) :
    OneAhead n (branch f no) := by
  intro ts hle
  cases ts with
  | nil => exact branch_not_taken hend nofun (hno [] hle)
  | cons t r =>
      cases hf : f t with
      | some q =>
          rw [List.length_cons] at hle
          obtain ⟨pre, hts, hsame⟩ := hyes t q hf r.length (by omega) r (Nat.le_refl _)
          rw [OneAheadAt, branch_some hf]
          refine ⟨t :: pre, ?_, fun rest hrest => ?_⟩
          · rw [List.cons_append, ← hts]
          · rw [List.cons_append, branch_some hf]
            exact hsame rest hrest
      | none =>
          refine branch_not_taken hend (fun t' ht' => ?_) (hno (t :: r) hle)
          obtain ⟨_, r', hr'⟩ := next?_eq_some ht'
          cases hr'
          exact hf

/-- A choice by the next token: once it is taken, one token less is left to agree on. -/
theorem on {kind : Token.Kind} {k : Span → Reader α} (hkind : kind ≠ .eof)
    (hyes : ∀ span, ∀ m < n, OneAhead m (k span)) (hno : OneAhead n no) :
    OneAhead n (Reader.branch (Reader.on kind k) no) := by
  refine .branch (on_eof hkind) (fun t q hq m hm => ?_) hno
  unfold Reader.on at hq
  split at hq
  · cases hq
    exact hyes t.span m hm
  · cases hq

theorem onOp {level : Token.Kind → Option BinOp} {k : BinOp → Reader α} (hlevel : level .eof = none)
    (hyes : ∀ op, ∀ m < n, OneAhead m (k op)) (hno : OneAhead n no) :
    OneAhead n (Reader.branch (Reader.onOp level k) no) := by
  have hend : ∀ span, Reader.onOp level k ⟨.eof, span⟩ = none := by
    intro span
    rw [Reader.onOp, hlevel, Option.map_none]
  refine .branch hend (fun t q hq m hm => ?_) hno
  obtain ⟨op, _, rfl⟩ := Option.map_eq_some_iff.mp hq
  exact hyes op m hm

/-- Looking ahead, if the end of the list and an end-of-stream token are treated alike. -/
theorem ahead {k : Option Token → Reader α} (hk : ∀ t, OneAhead n (k t))
    (hend : ∀ span r, k (some ⟨.eof, span⟩) (⟨.eof, span⟩ :: r) = k none (⟨.eof, span⟩ :: r)) :
    OneAhead n (ahead k) := by
  -- only the next token counts
  have hrun : ∀ ts, Reader.ahead k ts = k (next? ts) ts := by
    intro ts
    cases hnext : next? ts with
    | none =>
        rcases next?_eq_none hnext with rfl | ⟨span, r, rfl⟩
        · rfl
        · exact hend span r
    | some t =>
        obtain ⟨_, r, rfl⟩ := next?_eq_some hnext
        rfl
  intro ts hle
  obtain ⟨pre, hts, hsame⟩ := hk (next? ts) ts hle
  rw [OneAheadAt, hrun ts]
  refine ⟨pre, hts, fun rest hrest => ?_⟩
  have hnext : next? (pre ++ rest) = next? ts := by
    rw [next?_append_congr hrest, ← hts]
  rw [hrun, hnext, hsame rest hrest]

end OneAhead

end Definitions

/-! ## Parsers -/

section Parsers

variable {n : Nat}

/-- A fixed token is read by looking at the next token only. -/
theorem oneAhead_expect (n : Nat) (kind : Token.Kind) (hkind : kind ≠ .eof)
    (expected : Expectation) : OneAhead n (Reader.of (expect kind expected)) := by
  rw [of_expect]
  exact .on hkind (fun _ _ _ => .done) .fail

theorem oneAhead_mark (n : Nat) (p : Punct) (expected : Expectation) :
    OneAhead n (Reader.of (expect (.punct p) expected)) :=
  oneAhead_expect n (.punct p) nofun expected

theorem oneAhead_kw (n : Nat) (word : Keyword) (expected : Expectation) :
    OneAhead n (Reader.of (expect (.keyword word) expected)) :=
  oneAhead_expect n (.keyword word) nofun expected

theorem oneAhead_identifier (n : Nat) : OneAhead n (Reader.of identifier) := by
  rw [of_identifier]
  refine .branch (fun _ => rfl) (fun t q hq m hm => ?_) .fail
  unfold onName at hq
  split at hq
  · cases hq
    exact .done
  · cases hq

theorem oneAhead_typeName (n : Nat) : OneAhead n (Reader.of typeName) := by
  rw [of_typeName]
  refine .branch (fun _ => rfl) (fun t q hq m hm => ?_) .fail
  unfold onType at hq
  split at hq
  · cases hq
    exact .done
  · cases hq
    exact .done
  · cases hq

/-- Rows of operands, by induction on the number of tokens: an operator is taken in front of each
    operand. -/
theorem oneAhead_rowTail {level : Token.Kind → Option BinOp}
    {operand : (ts : List Token) → Outcome Expr ts.length}
    {tail : Expr → (ts : List Token) → Outcome Expr (ts.length + 1)}
    (hlevel : level .eof = none) (htail : ∀ left, tail left = rowNext level operand tail left)
    (h : OneAhead n (Reader.of operand)) (left : Expr) : OneAhead n (Reader.of (tail left)) := by
  induction n using Nat.strongRecOn generalizing left with
  | ind n ih =>
      rw [htail left, of_rowNext]
      refine .onOp hlevel (fun op m hm => ?_) .done
      have hoperand := h.mono (Nat.le_of_lt hm)
      exact .andThen hoperand (fun right => ih m hm hoperand (.join op left right))

/-- A row of factors looks one token ahead if a factor does: the row ends at the first token that is no
    multiplicative operator. -/
theorem oneAhead_product (h : OneAhead n (Reader.of factor)) : OneAhead n (Reader.of product) := by
  rw [product_eq_rowStart, of_rowStart]
  exact .andThen h (oneAhead_rowTail rfl productTail_eq_rowNext h)

/-- A row of products looks one token ahead if a product does. -/
theorem oneAhead_sum (h : OneAhead n (Reader.of product)) : OneAhead n (Reader.of sum) := by
  rw [sum_eq_rowStart, of_rowStart]
  exact .andThen h (oneAhead_rowTail rfl sumTail_eq_rowNext h)

/-- A comparison looks one token ahead if a sum does. -/
theorem oneAhead_expression (h : OneAhead n (Reader.of sum)) :
    OneAhead n (Reader.of expression) := by
  rw [of_expression]
  refine .andThen h (fun left => .onOp rfl (fun op m hm => ?_) .done)
  exact .andThen (h.mono (Nat.le_of_lt hm)) (fun _ => .done)

/-- Lists with marks, by induction on the number of tokens: a mark is taken in front of each item but
    the first. -/
theorem oneAhead_list {α : Type} {p : Punct} {item : (ts : List Token) → Outcome α ts.length}
    {items : (ts : List Token) → Outcome (List α) ts.length} (hitems : items = listStep p item items)
    (h : OneAhead n (Reader.of item)) : OneAhead n (Reader.of items) := by
  induction n using Nat.strongRecOn with
  | ind n ih =>
      rw [hitems, of_listStep]
      refine .andThen h (fun first => .on nofun (fun _ m hm => ?_) .done)
      exact .andThen (ih m hm (h.mono (Nat.le_of_lt hm))) (fun _ => .done)

/-- An argument list looks one token ahead if its expressions do. -/
theorem oneAhead_arguments (close : Expectation) (h : OneAhead n (Reader.of expression)) :
    OneAhead n (Reader.of (arguments close)) := by
  rw [of_arguments]
  refine .on nofun (fun _ _ _ => .done) ?_
  refine .andThen (oneAhead_list expressions_eq_listStep h) (fun args => ?_)
  exact .andThen (oneAhead_mark n _ _) (fun _ => .done)

/-- Factors, from what is known of fewer tokens. -/
theorem oneAhead_factor
    (ih : ∀ m < n, OneAhead m (Reader.of factor) ∧ OneAhead m (Reader.of expression)) :
    OneAhead n (Reader.of factor) := by
  rw [of_factor]
  refine .branch (fun _ => rfl) (fun t q hq m hm => ?_) .fail
  obtain ⟨hfactor, hexpr⟩ := ih m hm
  unfold factorBehind at hq
  split at hq
  · cases hq
    exact .done
  · cases hq
    exact .done
  · cases hq
    exact .done
  · cases hq
    refine .on nofun (fun _ l hl => ?_) .done
    exact .andThen (oneAhead_arguments .callClose (hexpr.mono (Nat.le_of_lt hl))) (fun _ => .done)
  · cases hq
    exact .andThen hexpr (fun _ => .andThen (oneAhead_mark m _ _) (fun _ => .done))
  · cases hq
    exact .andThen hfactor (fun _ => .done)
  · cases hq

/-- Expressions look one token ahead, by induction on the number of tokens. -/
theorem oneAhead_exprs (n : Nat) :
    OneAhead n (Reader.of factor) ∧ OneAhead n (Reader.of expression) := by
  induction n using Nat.strongRecOn with
  | ind n ih =>
      have hfactor := oneAhead_factor ih
      exact ⟨hfactor, oneAhead_expression (oneAhead_sum (oneAhead_product hfactor))⟩

theorem oneAhead_expr (n : Nat) : OneAhead n (Reader.of expression) :=
  (oneAhead_exprs n).2

theorem oneAhead_args (n : Nat) (close : Expectation) : OneAhead n (Reader.of (arguments close)) :=
  oneAhead_arguments close (oneAhead_expr n)

/-- Behind an identifier, the next token decides between an assignment and a call. -/
theorem oneAhead_assignOrCall (n : Nat) (name : Ident) :
    OneAhead n (Reader.of (assignOrCall name)) := by
  rw [of_assignOrCall]
  refine .on nofun (fun _ m _ => .andThen (oneAhead_expr m) (fun _ => .done)) ?_
  exact .on nofun (fun _ m _ => .andThen (oneAhead_args m _) (fun _ => .done)) .fail

/-- A `return` looks at the next token to see whether a value follows. -/
theorem oneAhead_returned (n : Nat) (start : Span) : OneAhead n (Reader.of (returned start)) := by
  rw [of_returned]
  refine .ahead (fun t => ?_) (fun _ _ => rfl)
  split
  · exact .done
  · exact .andThen (oneAhead_expr n) (fun _ => .done)

theorem oneAhead_written (n : Nat) (start : Span) : OneAhead n (Reader.of (written start)) := by
  rw [of_written]
  refine .andThen (oneAhead_mark n _ _) (fun _ => ?_)
  exact .andThen (oneAhead_args n _) (fun _ => .done)

/-- Statements, from what is known of blocks with fewer tokens. -/
theorem oneAhead_statement (ih : ∀ m < n, OneAhead m (Reader.of block)) :
    OneAhead n (Reader.of statement) := by
  rw [of_statement]
  refine .branch (fun _ => rfl) (fun t q hq m hm => ?_) .fail
  have hblock := ih m hm
  unfold statementBehind at hq
  split at hq
  · cases hq
    exact oneAhead_assignOrCall m _
  · cases hq
    exact oneAhead_returned m _
  · cases hq
    refine .andThen (oneAhead_expr m) (fun cond => .andThen (oneAhead_kw m _ _) (fun _ => ?_))
    refine .andThen hblock (fun yes => .on nofun (fun _ l hl => ?_) .done)
    exact .andThen (hblock.mono (Nat.le_of_lt hl)) (fun _ => .done)
  · cases hq
    refine .andThen (oneAhead_expr m) (fun cond => .andThen (oneAhead_kw m _ _) (fun _ => ?_))
    exact .andThen hblock (fun _ => .done)
  · cases hq
    exact .done
  · cases hq
    exact .done
  · cases hq
    exact oneAhead_written m _
  · cases hq

/-- A sequence of statements looks one token ahead if a statement does. -/
theorem oneAhead_statements (h : OneAhead n (Reader.of statement)) :
    OneAhead n (Reader.of statements) := by
  induction n using Nat.strongRecOn with
  | ind n ih =>
      have hmore : ∀ m < n, OneAhead m (Reader.of statements) :=
        fun m hm => ih m hm (h.mono (Nat.le_of_lt hm))
      rw [of_statements]
      refine .on nofun (fun _ _ _ => .done) (.on nofun (fun _ m hm => hmore m hm) ?_)
      refine .andThen h (fun first => .on nofun (fun _ m hm => ?_) ?_)
      · exact .andThen (hmore m hm) (fun _ => .done)
      · exact .andThen (oneAhead_kw n _ _) (fun _ => .done)

/-- Blocks look one token ahead, by induction on the number of tokens. -/
theorem oneAhead_block (n : Nat) : OneAhead n (Reader.of block) := by
  induction n using Nat.strongRecOn with
  | ind n ih =>
      have hstatements := oneAhead_statements (oneAhead_statement ih)
      rw [of_block]
      exact .andThen (oneAhead_kw n _ _) (fun _ => .andThen hstatements (fun _ => .done))

theorem oneAhead_names (n : Nat) : OneAhead n (Reader.of names) :=
  oneAhead_list names_eq_listStep (oneAhead_identifier n)

/-- A list of names does not start with an end-of-stream token. -/
theorem names_eof (span : Span) (r : List Token) :
    Reader.of names (⟨.eof, span⟩ :: r) = (.error .identifier, ⟨.eof, span⟩ :: r) := by
  rw [names_eq_listStep, of_listStep, of_identifier]
  rfl

theorem oneAhead_varLine (n : Nat) : OneAhead n (Reader.of varLine) := by
  rw [of_varLine]
  refine .ahead (fun t => .andThen (oneAhead_names n) (fun declared => ?_))
    (fun span r => by simp only [andThen, names_eof])
  refine .andThen (oneAhead_mark n _ _) (fun _ => .andThen (oneAhead_typeName n) (fun ty => ?_))
  exact .andThen (oneAhead_mark n _ _) (fun _ => .done)

/-- Lines of variables go on as long as the next token is an identifier. -/
theorem oneAhead_varLines (n : Nat) : OneAhead n (Reader.of varLines) := by
  induction n using Nat.strongRecOn with
  | ind n ih =>
      rw [of_varLines]
      refine .andThen_shorter (oneAhead_varLine n) (fun first m hm => .ahead (fun t => ?_) (fun _ _ => rfl))
      split
      · exact .andThen (ih m hm) (fun _ => .done)
      · exact .done

/-- Sections of variables go on as long as the next token is `var`. -/
theorem oneAhead_varSections (n : Nat) : OneAhead n (Reader.of varSections) := by
  induction n using Nat.strongRecOn with
  | ind n ih =>
      rw [of_varSections]
      refine .on nofun (fun _ m hm => .andThen (oneAhead_varLines m) (fun lines => ?_)) .done
      exact .andThen (ih m hm) (fun _ => .done)

theorem oneAhead_param (n : Nat) : OneAhead n (Reader.of param) := by
  rw [of_param]
  refine .ahead (fun t => .andThen (oneAhead_names n) (fun declared => ?_))
    (fun span r => by simp only [andThen, names_eof])
  exact .andThen (oneAhead_mark n _ _) (fun _ => .andThen (oneAhead_typeName n) (fun _ => .done))

theorem oneAhead_params (n : Nat) : OneAhead n (Reader.of params) := by
  rw [of_params]
  refine .on nofun (fun _ _ _ => .done) ?_
  refine .andThen (oneAhead_list paramGroups_eq_listStep (oneAhead_param n)) (fun groups => ?_)
  exact .andThen (oneAhead_mark n _ _) (fun _ => .done)

theorem oneAhead_procedureParams (n : Nat) : OneAhead n (Reader.of procedureParams) := by
  rw [of_procedureParams]
  exact .on nofun (fun _ m _ => oneAhead_params m) .done

theorem oneAhead_procedure (n : Nat) (start : Span) : OneAhead n (Reader.of (procedure start)) := by
  rw [of_procedure]
  refine .andThen (oneAhead_identifier n) (fun name => ?_)
  refine .andThen (oneAhead_procedureParams n) (fun groups => ?_)
  refine .andThen (oneAhead_mark n _ _) (fun _ => .andThen (oneAhead_block n) (fun body => ?_))
  exact .andThen (oneAhead_mark n _ _) (fun _ => .done)

theorem oneAhead_function (n : Nat) (start : Span) : OneAhead n (Reader.of (function start)) := by
  rw [of_function]
  refine .andThen (oneAhead_identifier n) (fun name => ?_)
  refine .andThen (oneAhead_mark n _ _) (fun _ => .andThen (oneAhead_params n) (fun groups => ?_))
  refine .andThen (oneAhead_mark n _ _) (fun _ => .andThen (oneAhead_typeName n) (fun ty => ?_))
  refine .andThen (oneAhead_mark n _ _) (fun _ => .andThen (oneAhead_block n) (fun body => ?_))
  exact .andThen (oneAhead_mark n _ _) (fun _ => .done)

/-- Routines go on as long as the next token is `procedure` or `function`. -/
theorem oneAhead_routines (n : Nat) : OneAhead n (Reader.of routines) := by
  induction n using Nat.strongRecOn with
  | ind n ih =>
      rw [of_routines]
      refine .on nofun (fun start m hm => .andThen (oneAhead_procedure m start) (fun first => ?_)) ?_
      · exact .andThen (ih m hm) (fun _ => .done)
      · refine .on nofun (fun start m hm => .andThen (oneAhead_function m start) (fun first => ?_)) .done
        exact .andThen (ih m hm) (fun _ => .done)

/-- In front of an end-of-stream token there are no declarations, and no block starts. -/
theorem program_eof {k : List VarDecl → List Routine → Block → Reader Program} (span : Span)
    (r : List Token) :
    andThen (Reader.of varSections) (fun vars => andThen (Reader.of routines) (fun subs =>
      andThen (Reader.of block) (k vars subs))) (⟨.eof, span⟩ :: r) =
      (.error .blockBegin, ⟨.eof, span⟩ :: r) := by
  rw [of_varSections, of_routines, of_block, of_expect]
  rfl

/-- **Programs look one token ahead**: what is read, or what is expected, depends on the tokens that are
    taken and the one behind them alone. -/
theorem oneAhead_program (n : Nat) : OneAhead n (Reader.of program) := by
  rw [of_program]
  refine .ahead (fun t => .andThen (oneAhead_varSections n) (fun vars => ?_))
    (fun span r => by rw [program_eof, program_eof])
  refine .andThen (oneAhead_routines n) (fun subs => .andThen (oneAhead_block n) (fun main => ?_))
  exact .andThen (oneAhead_mark n _ _) (fun _ => .done)

end Parsers

end Parser
end TinyPascal
