import TinyPascal.Tree.Parser.Expr

/-!
# `Proofs.Grammar.Reading` — what each parser reads

Proofs about parsers do not unfold them. `Reads o v rest` says that an outcome is the value `v` with the
tokens `rest` left, and for each parser there is one equivalence that says when it reads what.

## Contents
- **Outcomes.** `Reads`. What parsers read one after another is taken apart by `reads_bind` and put
  together by `Reads.bind`.
- **The next token.** `Stops goesOn ts`: the next token, if any, is none that `goesOn` admits.
- **Single tokens** and **expressions**, parser by parser. `Row` and `Separated` are what parsers of one
  shape have in common.
-/

namespace TinyPascal
namespace Parser

/-! ## Outcomes -/

/-- The outcome is the value `v`, and the tokens `rest` are left. -/
def Reads {α : Type} {n : Nat} (o : Outcome α n) (v : α) (rest : List Token) : Prop :=
  ∃ h, o = .ok ⟨v, rest, h⟩

section Outcomes

variable {α β : Type} {n m : Nat} {v : α} {rest : List Token}

theorem reads_ok {p : Parsed α n} :
    Reads (.ok p : Outcome α n) v rest ↔ v = p.value ∧ rest = p.rest := by
  constructor
  · rintro ⟨h, he⟩
    cases he
    exact ⟨rfl, rfl⟩
  · rintro ⟨rfl, rfl⟩
    exact ⟨p.shorter, rfl⟩

theorem not_reads_error {e : Failure} : ¬ Reads (.error e : Outcome α n) v rest := by
  rintro ⟨h, he⟩
  cases he

/-- What one parser has read, the next one goes on from. -/
theorem Reads.bind {o : Outcome β m} {f : Parsed β m → Outcome α n} {b : β} {r : List Token}
    (ho : Reads o b r) (hf : ∀ h, Reads (f ⟨b, r, h⟩) v rest) : Reads (o >>= f) v rest := by
  obtain ⟨h, rfl⟩ := ho
  exact hf h

/-- A sequence reads a value if its first part reads some value and its second part, from there, reads
    it. -/
theorem reads_bind {o : Outcome β m} {f : Parsed β m → Outcome α n} :
    Reads (o >>= f) v rest ↔ ∃ b r, Reads o b r ∧ ∃ h, Reads (f ⟨b, r, h⟩) v rest := by
  constructor
  · intro h
    cases o with
    | error e => exact absurd h not_reads_error
    | ok p => exact ⟨p.value, p.rest, reads_ok.mpr ⟨rfl, rfl⟩, p.shorter, h⟩
  · rintro ⟨b, r, ho, _, hf⟩
    exact ho.bind fun _ => hf

theorem Reads.shorter {o : Outcome α n} (h : Reads o v rest) : rest.length < n := by
  obtain ⟨h, _⟩ := h
  exact h

end Outcomes

/-! ## The next token -/

/-- The next token, if any, is none that `goesOn` admits. -/
def Stops (goesOn : Token.Kind → Bool) (ts : List Token) : Prop :=
  ∀ t ∈ ts.head?, goesOn t.kind = false

section Next

variable {goesOn : Token.Kind → Bool} {t : Token} {ts rest : List Token} {kind : Token.Kind}

theorem stops_nil : Stops goesOn [] := by
  intro t ht
  cases ht

theorem stops_cons : Stops goesOn (t :: ts) ↔ goesOn t.kind = false := by
  constructor
  · intro h
    exact h t rfl
  · intro h t' ht'
    cases ht'
    exact h

/-- Fewer tokens go on. -/
theorem Stops.mono {goesOn' : Token.Kind → Bool} (h : Stops goesOn ts)
    (hle : ∀ k, goesOn' k = true → goesOn k = true) : Stops goesOn' ts := by
  intro t ht
  have hno := h t ht
  cases hg : goesOn' t.kind with
  | false => rfl
  | true => rw [hle _ hg] at hno; cases hno

/-- The kind of a token is the given one. -/
abbrev is (kind : Token.Kind) : Token.Kind → Bool :=
  fun k => decide (k = kind)

/-- Either the next token is taken, or another one, or none, stands there. -/
theorem accept_cases (kind : Token.Kind) (ts : List Token) :
    (accept kind ts = none ∧ Stops (is kind) ts) ∨
      ∃ span r, ts = ⟨kind, span⟩ :: r := by
  cases ts with
  | nil => exact .inl ⟨rfl, stops_nil⟩
  | cons t r =>
      obtain ⟨k, span⟩ := t
      by_cases hk : k = kind
      · subst hk
        exact .inr ⟨span, r, rfl⟩
      · exact .inl ⟨if_neg hk, stops_cons.mpr (decide_eq_false hk)⟩

theorem accept_of_stops (h : Stops (is kind) ts) : accept kind ts = none := by
  rcases accept_cases kind ts with ⟨hnone, _⟩ | ⟨span, r, rfl⟩
  · exact hnone
  · exact absurd rfl (of_decide_eq_false (stops_cons.mp h))

/-- Either an operator of the level is taken, or no such operator stands there. -/
theorem acceptOp_cases (level : Token.Kind → Option BinOp) (ts : List Token) :
    (acceptOp level ts = none ∧ Stops (fun k => (level k).isSome) ts) ∨
      ∃ t op r, ts = t :: r ∧ level t.kind = some op := by
  cases ts with
  | nil => exact .inl ⟨rfl, stops_nil⟩
  | cons t r =>
      cases hop : level t.kind with
      | some op => exact .inr ⟨t, op, r, rfl, hop⟩
      | none =>
          refine .inl ⟨?_, stops_cons.mpr (by rw [hop]; rfl)⟩
          simp only [acceptOp, hop]

/-- No operator of a level is accepted where the list stops before them all. -/
theorem acceptOp_of_stops {level : Token.Kind → Option BinOp}
    (h : Stops (fun k => (level k).isSome) ts) : acceptOp level ts = none := by
  rcases acceptOp_cases level ts with ⟨hnone, _⟩ | ⟨t, op, r, rfl, hop⟩
  · exact hnone
  · have hno := stops_cons.mp h
    rw [hop] at hno
    cases hno

theorem acceptOp_cons {level : Token.Kind → Option BinOp} {op : BinOp}
    (h : level t.kind = some op) : acceptOp level (t :: rest) = some (.behind op t rest) := by
  simp only [acceptOp, h]

/-! ## Single tokens -/

/-- A fixed token is read exactly where it is the next one; its span is the value. -/
theorem reads_expect {expected : Expectation} {span : Span} :
    Reads (expect kind expected ts) span rest ↔ ts = ⟨kind, span⟩ :: rest := by
  constructor
  · rintro ⟨h, he⟩
    exact eq_cons_of_expect he
  · rintro rfl
    exact ⟨_, expect_cons kind expected span rest⟩

/-- A name is read exactly where the next token is an identifier. -/
theorem reads_identifier {name : Ident} :
    Reads (identifier ts) name rest ↔ ts = ⟨.ident name.name, name.span⟩ :: rest := by
  constructor
  · rintro ⟨h, he⟩
    unfold identifier at he
    split at he
    · cases he; rfl
    · cases he
  · rintro rfl
    exact ⟨_, rfl⟩

/-- The reserved word for a type. -/
def tyWord : Ty → Keyword
  | .integer => .integer
  | .boolean => .boolean

/-- A type is read exactly where the next token is its keyword. -/
theorem reads_typeName {ty : Ty} {span : Span} :
    Reads (typeName ts) (ty, span) rest ↔ ts = ⟨.keyword (tyWord ty), span⟩ :: rest := by
  constructor
  · rintro ⟨h, he⟩
    unfold typeName at he
    split at he
    · cases he; rfl
    · cases he; rfl
    · cases he
  · rintro rfl
    cases ty
    · exact ⟨_, rfl⟩
    · exact ⟨_, rfl⟩

end Next

/-! ## Expressions -/

section Expressions

variable {ts rest : List Token} {e : Expr}

/-- An expression is a sum, or two sums around a relational operator. -/
theorem reads_expression :
    Reads (expression ts) e rest ↔ ∃ left r, Reads (sum ts) left r ∧
      ((Stops (fun k => (relational? k).isSome) r ∧ e = left ∧ rest = r) ∨
        ∃ t op r₁ right, r = t :: r₁ ∧ relational? t.kind = some op ∧ Reads (sum r₁) right rest ∧
          e = .join op left right) := by
  rw [expression]
  constructor
  · intro h
    obtain ⟨left, r, hsum, _, hrest⟩ := reads_bind.mp h
    refine ⟨left, r, hsum, ?_⟩
    rcases acceptOp_cases relational? r with ⟨hnone, hstop⟩ | ⟨t, op, r₁, rfl, hop⟩
    · simp only [hnone] at hrest
      exact .inl ⟨hstop, reads_ok.mp hrest⟩
    · simp only [acceptOp_cons hop, Parsed.behind] at hrest
      obtain ⟨right, r₂, hright, _, hrest⟩ := reads_bind.mp hrest
      obtain ⟨rfl, rfl⟩ := reads_ok.mp hrest
      exact .inr ⟨t, op, r₁, right, rfl, hop, hright, rfl⟩
  · rintro ⟨left, r, hsum, ⟨hstop, rfl, rfl⟩ | ⟨t, op, r₁, right, rfl, hop, hright, rfl⟩⟩
    · refine hsum.bind fun _ => ?_
      simp only [acceptOp_of_stops hstop]
      exact reads_ok.mpr ⟨rfl, rfl⟩
    · refine hsum.bind fun _ => ?_
      simp only [acceptOp_cons hop, Parsed.behind]
      exact hright.bind fun _ => reads_ok.mpr ⟨rfl, rfl⟩

/-- **Rows of operands.** Sums and products are read in the same way: an operand, and `tail left` goes on
    behind the operand `left` as long as an operator of the level follows. -/
structure Row (level : Token.Kind → Option BinOp)
    (operand row : (ts : List Token) → Outcome Expr ts.length)
    (tail : Expr → (ts : List Token) → Outcome Expr (ts.length + 1)) : Prop where
  reads_row : ∀ {ts e rest}, Reads (row ts) e rest ↔
    ∃ left r, Reads (operand ts) left r ∧ Reads (tail left r) e rest
  reads_tail : ∀ {left ts e rest}, Reads (tail left ts) e rest ↔
    (Stops (fun k => (level k).isSome) ts ∧ e = left ∧ rest = ts) ∨
    ∃ t op r right r₁, ts = t :: r ∧ level t.kind = some op ∧ Reads (operand r) right r₁ ∧
      Reads (tail (.join op left right) r₁) e rest

/-- What is left after an operand and the rest of its row, which may be empty. -/
theorem shorter_behind {a b c : List Token} (h : a.length < b.length + 1)
    (h' : b.length < c.length) : a.length < c.length :=
  Nat.lt_of_le_of_lt (Nat.le_of_lt_succ h) h'

/-- The first operand of a row, and the rest. -/
def rowStart (operand : (ts : List Token) → Outcome Expr ts.length)
    (tail : Expr → (ts : List Token) → Outcome Expr (ts.length + 1)) (ts : List Token) :
    Outcome Expr ts.length := do
  let ⟨left, r, h⟩ ← operand ts
  let ⟨whole, r₁, h₁⟩ ← tail left r
  return ⟨whole, r₁, shorter_behind h₁ h⟩

/-- The next operand of a row that starts with `left`, if there is one, and the rest. -/
def rowNext (level : Token.Kind → Option BinOp) (operand : (ts : List Token) → Outcome Expr ts.length)
    (tail : Expr → (ts : List Token) → Outcome Expr (ts.length + 1)) (left : Expr) (ts : List Token) :
    Outcome Expr (ts.length + 1) :=
  match acceptOp level ts with
  | none => .ok (.here left ts)
  | some ⟨op, r, h⟩ => do
    let ⟨right, r₁, h₁⟩ ← operand r
    let ⟨whole, r₂, h₂⟩ ← tail (.join op left right) r₁
    return ⟨whole, r₂, shorter_tail h₂ h₁ h⟩

/-- Two functions that unfold as the steps of a row make a row. -/
theorem Row.of_steps {level : Token.Kind → Option BinOp}
    {operand row : (ts : List Token) → Outcome Expr ts.length}
    {tail : Expr → (ts : List Token) → Outcome Expr (ts.length + 1)}
    (hrow : ∀ ts, row ts = rowStart operand tail ts)
    (htail : ∀ left ts, tail left ts = rowNext level operand tail left ts) :
    Row level operand row tail := by
  constructor
  · intro ts e rest
    rw [hrow, rowStart]
    constructor
    · intro h
      obtain ⟨left, r, hfirst, _, hrest⟩ := reads_bind.mp h
      obtain ⟨whole, r₁, hwhole, _, hrest⟩ := reads_bind.mp hrest
      obtain ⟨rfl, rfl⟩ := reads_ok.mp hrest
      exact ⟨left, r, hfirst, hwhole⟩
    · rintro ⟨left, r, hfirst, hwhole⟩
      refine hfirst.bind fun _ => ?_
      refine hwhole.bind fun _ => ?_
      exact reads_ok.mpr ⟨rfl, rfl⟩
  · intro left ts e rest
    rw [htail, rowNext]
    constructor
    · intro h
      -- without an operator of the level the row ends here
      rcases acceptOp_cases level ts with ⟨hnone, hstop⟩ | ⟨t, op, r, rfl, hop⟩
      · simp only [hnone] at h
        exact .inl ⟨hstop, reads_ok.mp h⟩
      · simp only [acceptOp_cons hop, Parsed.behind] at h
        obtain ⟨right, r₁, hright, _, h⟩ := reads_bind.mp h
        obtain ⟨whole, r₂, hwhole, _, h⟩ := reads_bind.mp h
        obtain ⟨rfl, rfl⟩ := reads_ok.mp h
        exact .inr ⟨t, op, r, right, r₁, rfl, hop, hright, hwhole⟩
    · rintro (⟨hstop, rfl, rfl⟩ | ⟨t, op, r, right, r₁, rfl, hop, hright, hwhole⟩)
      · simp only [acceptOp_of_stops hstop]
        exact reads_ok.mpr ⟨rfl, rfl⟩
      · simp only [acceptOp_cons hop, Parsed.behind]
        refine hright.bind fun _ => ?_
        refine hwhole.bind fun _ => ?_
        exact reads_ok.mpr ⟨rfl, rfl⟩

theorem row_sum : Row additive? product sum sumTail := by
  refine .of_steps (fun ts => ?_) (fun left ts => ?_)
  · rw [sum]
    rfl
  · rw [sumTail]
    rfl

theorem row_product : Row multiplicative? factor product productTail := by
  refine .of_steps (fun ts => ?_) (fun left ts => ?_)
  · rw [product]
    rfl
  · rw [productTail]
    rfl

/-- What a factor is, by its first token. -/
inductive ReadsFactor : List Token → Expr → List Token → Prop where
  | int {n span rest} : ReadsFactor (⟨.int n, span⟩ :: rest) (.int n span) rest
  | true {span rest} : ReadsFactor (⟨.keyword .true, span⟩ :: rest) (.bool true span) rest
  | false {span rest} : ReadsFactor (⟨.keyword .false, span⟩ :: rest) (.bool false span) rest
  | var {x span rest} : Stops (is (.punct .lparen)) rest →
      ReadsFactor (⟨.ident x, span⟩ :: rest) (.var x span) rest
  | call {x span opening r args stop rest} : Reads (arguments .callClose r) (args, stop) rest →
      ReadsFactor (⟨.ident x, span⟩ :: ⟨.punct .lparen, opening⟩ :: r)
        (.call ⟨x, span⟩ args (span.merge stop)) rest
  | paren {span r inner stop rest} : Reads (expression r) inner (⟨.punct .rparen, stop⟩ :: rest) →
      ReadsFactor (⟨.punct .lparen, span⟩ :: r) (.paren inner (span.merge stop)) rest
  | not {span r operand rest} : Reads (factor r) operand rest →
      ReadsFactor (⟨.keyword .not, span⟩ :: r) (.not operand (span.merge operand.span)) rest

/-- A factor is read exactly as one of its forms. -/
theorem reads_factor : Reads (factor ts) e rest ↔ ReadsFactor ts e rest := by
  constructor
  · intro h
    rw [factor.eq_def] at h
    split at h
    · exact absurd h not_reads_error
    · split at h
      · obtain ⟨rfl, rfl⟩ := reads_ok.mp h
        exact .int
      · obtain ⟨rfl, rfl⟩ := reads_ok.mp h
        exact .true
      · obtain ⟨rfl, rfl⟩ := reads_ok.mp h
        exact .false
      · next r _ x =>
          rcases accept_cases (.punct .lparen) r with ⟨hnone, hstop⟩ | ⟨opening, r₁, rfl⟩
          · simp only [hnone] at h
            obtain ⟨rfl, rfl⟩ := reads_ok.mp h
            exact .var hstop
          · simp only [accept_cons, Parsed.behind] at h
            obtain ⟨⟨args, stop⟩, r₂, hargs, _, h⟩ := reads_bind.mp h
            obtain ⟨rfl, rfl⟩ := reads_ok.mp h
            exact .call hargs
      · obtain ⟨inner, r₁, hinner, _, h⟩ := reads_bind.mp h
        obtain ⟨stop, r₂, hclose, _, h⟩ := reads_bind.mp h
        obtain ⟨rfl, rfl⟩ := reads_ok.mp h
        cases reads_expect.mp hclose
        exact .paren hinner
      · obtain ⟨operand, r₁, hoperand, _, h⟩ := reads_bind.mp h
        obtain ⟨rfl, rfl⟩ := reads_ok.mp h
        exact .not hoperand
      · exact absurd h not_reads_error
  · intro h
    rw [factor.eq_def]
    cases h with
    | int => exact reads_ok.mpr ⟨rfl, rfl⟩
    | true => exact reads_ok.mpr ⟨rfl, rfl⟩
    | false => exact reads_ok.mpr ⟨rfl, rfl⟩
    | var hstop =>
        simp only [accept_of_stops hstop]
        exact reads_ok.mpr ⟨rfl, rfl⟩
    | call hargs =>
        simp only [accept_cons, Parsed.behind]
        exact hargs.bind fun _ => reads_ok.mpr ⟨rfl, rfl⟩
    | paren hinner =>
        refine hinner.bind fun _ => ?_
        refine (reads_expect.mpr rfl).bind fun _ => ?_
        exact reads_ok.mpr ⟨rfl, rfl⟩
    | not hoperand =>
        exact hoperand.bind fun _ => reads_ok.mpr ⟨rfl, rfl⟩

/-- Arguments: a closing parenthesis, or expressions and a closing parenthesis. -/
theorem reads_arguments {close : Expectation} {args : List Expr} {stop : Span} :
    Reads (arguments close ts) (args, stop) rest ↔
      (ts = ⟨.punct .rparen, stop⟩ :: rest ∧ args = []) ∨
      (Stops (is (.punct .rparen)) ts ∧
        Reads (expressions ts) args (⟨.punct .rparen, stop⟩ :: rest)) := by
  rw [arguments]
  constructor
  · intro h
    rcases accept_cases (.punct .rparen) ts with ⟨hnone, hstop⟩ | ⟨span, r, rfl⟩
    · simp only [hnone] at h
      obtain ⟨args', r, hargs, _, h⟩ := reads_bind.mp h
      obtain ⟨stop', r₁, hclose, _, h⟩ := reads_bind.mp h
      obtain ⟨hvalue, rfl⟩ := reads_ok.mp h
      cases hvalue
      cases reads_expect.mp hclose
      exact .inr ⟨hstop, hargs⟩
    · simp only [accept_cons, Parsed.behind] at h
      obtain ⟨hvalue, rfl⟩ := reads_ok.mp h
      cases hvalue
      exact .inl ⟨rfl, rfl⟩
  · rintro (⟨rfl, rfl⟩ | ⟨hstop, hargs⟩)
    · simp only [accept_cons, Parsed.behind]
      exact reads_ok.mpr ⟨rfl, rfl⟩
    · simp only [accept_of_stops hstop]
      refine hargs.bind fun _ => ?_
      refine (reads_expect.mpr rfl).bind fun _ => ?_
      exact reads_ok.mpr ⟨rfl, rfl⟩

/-- **Lists with marks.** Arguments, names and parameters are read in the same way: an item, and more
    items as long as the mark follows. -/
structure Separated {α : Type} (p : Punct) (item : (ts : List Token) → Outcome α ts.length)
    (items : (ts : List Token) → Outcome (List α) ts.length) : Prop where
  reads_items : ∀ {ts vs rest}, Reads (items ts) vs rest ↔ ∃ first r, Reads (item ts) first r ∧
    ((Stops (is (.punct p)) r ∧ vs = [first] ∧ rest = r) ∨
      ∃ span r₁ more, r = ⟨.punct p, span⟩ :: r₁ ∧ Reads (items r₁) more rest ∧ vs = first :: more)

/-- What is left after an item, a mark and the other items. -/
theorem shorter_list {a b c d : List Token} (h : a.length < b.length) (h' : b.length < c.length)
    (h'' : c.length < d.length) : a.length < d.length :=
  shorter_trans (shorter_trans h h') h''

/-- The first item of a list, and the other items if the mark follows. -/
def listStep {α : Type} (p : Punct) (item : (ts : List Token) → Outcome α ts.length)
    (items : (ts : List Token) → Outcome (List α) ts.length) (ts : List Token) :
    Outcome (List α) ts.length := do
  let ⟨first, r, h⟩ ← item ts
  match accept (.punct p) r with
  | none => return ⟨[first], r, h⟩
  | some ⟨_, r₁, h₁⟩ =>
    let ⟨more, r₂, h₂⟩ ← items r₁
    return ⟨first :: more, r₂, shorter_list h₂ h₁ h⟩

/-- A function that unfolds as the step of a list reads a list with separators. -/
theorem Separated.of_step {α : Type} {p : Punct} {item : (ts : List Token) → Outcome α ts.length}
    {items : (ts : List Token) → Outcome (List α) ts.length}
    (hstep : ∀ ts, items ts = listStep p item items ts) : Separated p item items := by
  refine ⟨fun {ts vs rest} => ?_⟩
  rw [hstep, listStep]
  constructor
  · intro h
    obtain ⟨first, r, hfirst, _, hrest⟩ := reads_bind.mp h
    refine ⟨first, r, hfirst, ?_⟩
    rcases accept_cases (.punct p) r with ⟨hnone, hstop⟩ | ⟨span, r₁, rfl⟩
    · simp only [hnone] at hrest
      exact .inl ⟨hstop, reads_ok.mp hrest⟩
    · simp only [accept_cons, Parsed.behind] at hrest
      obtain ⟨more, r₂, hmore, _, hrest⟩ := reads_bind.mp hrest
      obtain ⟨rfl, rfl⟩ := reads_ok.mp hrest
      exact .inr ⟨span, r₁, more, rfl, hmore, rfl⟩
  · rintro ⟨first, r, hfirst, ⟨hstop, rfl, rfl⟩ | ⟨span, r₁, more, rfl, hmore, rfl⟩⟩
    · refine hfirst.bind fun _ => ?_
      simp only [accept_of_stops hstop]
      exact reads_ok.mpr ⟨rfl, rfl⟩
    · refine hfirst.bind fun _ => ?_
      simp only [accept_cons, Parsed.behind]
      exact hmore.bind fun _ => reads_ok.mpr ⟨rfl, rfl⟩

theorem separated_expressions : Separated .comma expression expressions := by
  refine .of_step (fun ts => ?_)
  rw [expressions]
  rfl

end Expressions

end Parser
end TinyPascal
