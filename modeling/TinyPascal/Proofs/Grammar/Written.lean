import TinyPascal.Proofs.Tree.Print
import TinyPascal.Tree.Read

/-!
# `Proofs.Grammar.Written` — the tokens of each node

A tree is **written** as a list of tokens if the tokens can be cut so that every node has its own
stretch of them, with the stretches of its parts inside. Empty statements, a missing `var` and the
parentheses of a procedure without parameters leave no trace in the tree, so one tree is written in many
ways. Each node carries a place, and a predicate `P` says which places fit which tokens.

## Contents
- **Written trees.** From `Ident.Written` to `Program.Written`. `Listed` is what lists with marks have in
  common.
- **Places.** `Covering P`: places that are put together as the parsers do it still fit. `*.spanned`: the
  place of a node fits its tokens.
- **Parsers.** `Yields n f W`: what the parser takes is written for its value. From factors to
  `yields_program`.
- **Streams.** `written_of_next`: what is taken off a stream is written for the tree.
- **Other predicates.** `Program.Written.imp`: places that fit better on every stretch.
-/

namespace TinyPascal

open TinyPascal.Parser TinyPascal.Grammar

/-! ## Written trees -/

/-- Items in a row with a mark between any two of them. -/
inductive Listed {α : Type} (mark : Punct) (W : α → List Token → Prop) :
    List α → List Token → Prop where
  | none : Listed mark W [] []
  | one {a ts} : W a ts → Listed mark W [a] ts
  | more {a b as ts us place} : W a ts → Listed mark W (b :: as) us →
      Listed mark W (a :: b :: as) (ts ++ ⟨.punct mark, place⟩ :: us)

/-- The token is the name. -/
def Ident.Written (P : Span → List Token → Prop) (name : Ident) (ts : List Token) : Prop :=
  ∃ t : Token, ts = [t] ∧ t.kind = .ident name.name ∧ P name.span [t]

mutual

/-- The tokens are written for the expression, which stands in the given position. -/
inductive Expr.Written (P : Span → List Token → Prop) : Tier → Expr → List Token → Prop where
  | int {tier value place span} : P span [⟨.int value, place⟩] →
      Expr.Written P tier (.int value span) [⟨.int value, place⟩]
  | bool {tier value place span} : P span [⟨.keyword (boolWord value), place⟩] →
      Expr.Written P tier (.bool value span) [⟨.keyword (boolWord value), place⟩]
  | var {tier name place span} : P span [⟨.ident name, place⟩] →
      Expr.Written P tier (.var name span) [⟨.ident name, place⟩]
  | paren {tier inner ts opening closing span} : Expr.Written P .expression inner ts →
      P span (⟨.punct .lparen, opening⟩ :: (ts ++ [⟨.punct .rparen, closing⟩])) →
      Expr.Written P tier (.paren inner span)
        (⟨.punct .lparen, opening⟩ :: (ts ++ [⟨.punct .rparen, closing⟩]))
  | not {tier operand ts place span} : Expr.Written P .factor operand ts →
      P span (⟨.keyword .not, place⟩ :: ts) →
      Expr.Written P tier (.not operand span) (⟨.keyword .not, place⟩ :: ts)
  | binary {tier op left right us vs place span} : tier.admits op = true →
      Expr.Written P op.left left us → Expr.Written P op.right right vs →
      P span (us ++ ⟨op.kind, place⟩ :: vs) →
      Expr.Written P tier (.binary op left right span) (us ++ ⟨op.kind, place⟩ :: vs)
  | call {tier callee t args ts opening closing span} : callee.Written P [t] →
      ExprsWritten P args ts →
      P span (t :: ⟨.punct .lparen, opening⟩ :: (ts ++ [⟨.punct .rparen, closing⟩])) →
      Expr.Written P tier (.call callee args span)
        (t :: ⟨.punct .lparen, opening⟩ :: (ts ++ [⟨.punct .rparen, closing⟩]))

/-- Arguments, with commas between them. -/
inductive ExprsWritten (P : Span → List Token → Prop) : List Expr → List Token → Prop where
  | none : ExprsWritten P [] []
  | one {e ts} : Expr.Written P .expression e ts → ExprsWritten P [e] ts
  | more {e next es ts us place} : Expr.Written P .expression e ts → ExprsWritten P (next :: es) us →
      ExprsWritten P (e :: next :: es) (ts ++ ⟨.punct .comma, place⟩ :: us)

end

mutual

/-- The tokens are written for the statement. -/
inductive Stmt.Written (P : Span → List Token → Prop) : Stmt → List Token → Prop where
  | assign {target t arrow value ts span} : target.Written P [t] →
      Expr.Written P .expression value ts → P span (t :: ⟨.operator .assign, arrow⟩ :: ts) →
      Stmt.Written P (.assign target value span) (t :: ⟨.operator .assign, arrow⟩ :: ts)
  | call {callee t args ts opening closing span} : callee.Written P [t] → ExprsWritten P args ts →
      P span (t :: ⟨.punct .lparen, opening⟩ :: (ts ++ [⟨.punct .rparen, closing⟩])) →
      Stmt.Written P (.call callee args span)
        (t :: ⟨.punct .lparen, opening⟩ :: (ts ++ [⟨.punct .rparen, closing⟩]))
  | returnNone {place span} : P span [⟨.keyword .return, place⟩] →
      Stmt.Written P (.return none span) [⟨.keyword .return, place⟩]
  | returnSome {value ts place span} : Expr.Written P .expression value ts →
      P span (⟨.keyword .return, place⟩ :: ts) →
      Stmt.Written P (.return (some value) span) (⟨.keyword .return, place⟩ :: ts)
  | ifThen {cond yes ts us place mid span} : Expr.Written P .expression cond ts →
      Block.Written P yes us → P span (⟨.keyword .if, place⟩ :: (ts ++ ⟨.keyword .then, mid⟩ :: us)) →
      Stmt.Written P (.ifThen cond yes span)
        (⟨.keyword .if, place⟩ :: (ts ++ ⟨.keyword .then, mid⟩ :: us))
  | ifElse {cond yes no ts us vs place mid mid' span} : Expr.Written P .expression cond ts →
      Block.Written P yes us → Block.Written P no vs →
      P span (⟨.keyword .if, place⟩ ::
        (ts ++ ⟨.keyword .then, mid⟩ :: (us ++ ⟨.keyword .else, mid'⟩ :: vs))) →
      Stmt.Written P (.ifElse cond yes no span)
        (⟨.keyword .if, place⟩ ::
          (ts ++ ⟨.keyword .then, mid⟩ :: (us ++ ⟨.keyword .else, mid'⟩ :: vs)))
  | while {cond body ts us place mid span} : Expr.Written P .expression cond ts →
      Block.Written P body us → P span (⟨.keyword .while, place⟩ :: (ts ++ ⟨.keyword .do, mid⟩ :: us)) →
      Stmt.Written P (.while cond body span)
        (⟨.keyword .while, place⟩ :: (ts ++ ⟨.keyword .do, mid⟩ :: us))
  | break {place span} : P span [⟨.keyword .break, place⟩] →
      Stmt.Written P (.break span) [⟨.keyword .break, place⟩]
  | continue {place span} : P span [⟨.keyword .continue, place⟩] →
      Stmt.Written P (.continue span) [⟨.keyword .continue, place⟩]
  | write {args ts place opening closing span} : ExprsWritten P args ts →
      P span (⟨.keyword .writeln, place⟩ :: ⟨.punct .lparen, opening⟩ ::
        (ts ++ [⟨.punct .rparen, closing⟩])) →
      Stmt.Written P (.write args span)
        (⟨.keyword .writeln, place⟩ :: ⟨.punct .lparen, opening⟩ ::
          (ts ++ [⟨.punct .rparen, closing⟩]))

/-- A block runs from its `begin` to its `end`. -/
inductive Block.Written (P : Span → List Token → Prop) : Block → List Token → Prop where
  | mk {statements ts place span} : StmtsWritten P statements ts →
      P span (⟨.keyword .begin, place⟩ :: ts) →
      Block.Written P ⟨statements, span⟩ (⟨.keyword .begin, place⟩ :: ts)

/-- The statements of a block, up to and with its `end`. A semicolon in front of them belongs to an empty
    statement. -/
inductive StmtsWritten (P : Span → List Token → Prop) : List Stmt → List Token → Prop where
  | done {stop} : StmtsWritten P [] [⟨.keyword .end, stop⟩]
  | skip {ss ts place} : StmtsWritten P ss ts → StmtsWritten P ss (⟨.punct .semicolon, place⟩ :: ts)
  | next {s ss ts us place} : Stmt.Written P s ts → StmtsWritten P ss us →
      StmtsWritten P (s :: ss) (ts ++ ⟨.punct .semicolon, place⟩ :: us)
  | last {s ts stop} : Stmt.Written P s ts → StmtsWritten P [s] (ts ++ [⟨.keyword .end, stop⟩])

end

/-- A declaration of variables runs from its first name to its semicolon. -/
inductive VarDecl.Written (P : Span → List Token → Prop) : VarDecl → List Token → Prop where
  | mk {names ty ts colon place stop span} : names ≠ [] → Listed .comma (Ident.Written P) names ts →
      P span (ts ++ [⟨.punct .colon, colon⟩, ⟨.keyword (tyWord ty), place⟩,
        ⟨.punct .semicolon, stop⟩]) →
      VarDecl.Written P ⟨names, ty, span⟩
        (ts ++ [⟨.punct .colon, colon⟩, ⟨.keyword (tyWord ty), place⟩, ⟨.punct .semicolon, stop⟩])

/-- Variables. Behind a declaration, which has a `var` in front of it, others need none:
    `opened` says that one stands in front. -/
inductive VarsWritten (P : Span → List Token → Prop) : Bool → List VarDecl → List Token → Prop where
  | none {opened} : VarsWritten P opened [] []
  | opening {opened d ds ts us place} : VarDecl.Written P d ts → VarsWritten P true ds us →
      VarsWritten P opened (d :: ds) (⟨.keyword .var, place⟩ :: (ts ++ us))
  | line {d ds ts us} : VarDecl.Written P d ts → VarsWritten P true ds us →
      VarsWritten P true (d :: ds) (ts ++ us)

/-- A group of parameters runs from its first name to its type. -/
inductive Param.Written (P : Span → List Token → Prop) : Param → List Token → Prop where
  | mk {names ty ts colon stop span} : names ≠ [] → Listed .comma (Ident.Written P) names ts →
      P span (ts ++ [⟨.punct .colon, colon⟩, ⟨.keyword (tyWord ty), stop⟩]) →
      Param.Written P ⟨names, ty, span⟩
        (ts ++ [⟨.punct .colon, colon⟩, ⟨.keyword (tyWord ty), stop⟩])

/-- Parameters with their parentheses. -/
inductive ParamsWritten (P : Span → List Token → Prop) : List Param → List Token → Prop where
  | mk {groups ts opening closing} : Listed .semicolon (Param.Written P) groups ts →
      ParamsWritten P groups (⟨.punct .lparen, opening⟩ :: (ts ++ [⟨.punct .rparen, closing⟩]))

/-- A routine runs from its keyword to its last semicolon. -/
inductive Routine.Written (P : Span → List Token → Prop) : Routine → List Token → Prop where
  | bare {name t body ts place semi stop span} : name.Written P [t] → Block.Written P body ts →
      P span (⟨.keyword .procedure, place⟩ :: t :: ⟨.punct .semicolon, semi⟩ ::
        (ts ++ [⟨.punct .semicolon, stop⟩])) →
      Routine.Written P ⟨name, [], none, body, span⟩
        (⟨.keyword .procedure, place⟩ :: t :: ⟨.punct .semicolon, semi⟩ ::
          (ts ++ [⟨.punct .semicolon, stop⟩]))
  | procedure {name t groups us body ts place semi stop span} : name.Written P [t] →
      ParamsWritten P groups us → Block.Written P body ts →
      P span (⟨.keyword .procedure, place⟩ :: t :: (us ++ ⟨.punct .semicolon, semi⟩ ::
        (ts ++ [⟨.punct .semicolon, stop⟩]))) →
      Routine.Written P ⟨name, groups, none, body, span⟩
        (⟨.keyword .procedure, place⟩ :: t :: (us ++ ⟨.punct .semicolon, semi⟩ ::
          (ts ++ [⟨.punct .semicolon, stop⟩])))
  | function {name t groups us ty body ts place colon result semi stop span} : name.Written P [t] →
      ParamsWritten P groups us → Block.Written P body ts →
      P span (⟨.keyword .function, place⟩ :: t :: (us ++ ⟨.punct .colon, colon⟩ ::
        ⟨.keyword (tyWord ty), result⟩ :: ⟨.punct .semicolon, semi⟩ ::
          (ts ++ [⟨.punct .semicolon, stop⟩]))) →
      Routine.Written P ⟨name, groups, some ty, body, span⟩
        (⟨.keyword .function, place⟩ :: t :: (us ++ ⟨.punct .colon, colon⟩ ::
          ⟨.keyword (tyWord ty), result⟩ :: ⟨.punct .semicolon, semi⟩ ::
            (ts ++ [⟨.punct .semicolon, stop⟩])))

/-- Routines, one behind the other. -/
inductive RoutinesWritten (P : Span → List Token → Prop) : List Routine → List Token → Prop where
  | none : RoutinesWritten P [] []
  | more {r rs ts us} : Routine.Written P r ts → RoutinesWritten P rs us →
      RoutinesWritten P (r :: rs) (ts ++ us)

/-- A program runs from its first token to its dot. -/
inductive Program.Written (P : Span → List Token → Prop) : Program → List Token → Prop where
  | mk {vars routines main ts us vs stop span} : VarsWritten P false vars ts →
      RoutinesWritten P routines us → Block.Written P main vs →
      P span (ts ++ (us ++ (vs ++ [⟨.punct .dot, stop⟩]))) →
      Program.Written P ⟨vars.map .vars ++ routines.map .routine, main, span⟩
        (ts ++ (us ++ (vs ++ [⟨.punct .dot, stop⟩])))

/-! ## Places -/

section Places

variable {P : Span → List Token → Prop}

/-- The place of an expression is right for its tokens. -/
theorem Expr.Written.spanned {tier : Tier} {e : Expr} {ts : List Token} (h : e.Written P tier ts) :
    P e.span ts := by
  cases h
  all_goals assumption

theorem Block.Written.spanned {b : Block} {ts : List Token} (h : b.Written P ts) : P b.span ts := by
  cases h
  assumption

/-- A factor, and whatever else fits a tight position, fits a looser one. -/
theorem Expr.Written.loosen {tier tier' : Tier} {e : Expr} {ts : List Token}
    (h : e.Written P tier ts) (hle : tier'.rank ≤ tier.rank) : e.Written P tier' ts := by
  cases h with
  | int hspan => exact .int hspan
  | bool hspan => exact .bool hspan
  | var hspan => exact .var hspan
  | paren hinner hspan => exact .paren hinner hspan
  | not hoperand hspan => exact .not hoperand hspan
  | binary hop hleft hright hspan =>
      refine .binary ?_ hleft hright hspan
      exact decide_eq_true (Nat.le_trans hle (of_decide_eq_true hop))
  | call hcallee hargs hspan => exact .call hcallee hargs hspan

/-- Places fit as the parsers put them together: the place of a token fits it, and the places of the two
    ends of a stretch, merged, fit the whole stretch. -/
structure Covering (P : Span → List Token → Prop) : Prop where
  token : ∀ (kind : Token.Kind) (place : Span), P place [⟨kind, place⟩]
  merge : ∀ {s s' : Span} {us vs : List Token} (ws : List Token), P s us → P s' vs →
    P (s.merge s') (us ++ (ws ++ vs))

/-- From a token to the end of a stretch. -/
theorem Covering.from_token (hP : Covering P) (kind : Token.Kind) (place : Span) {s : Span}
    {vs : List Token} (ws : List Token) (h : P s vs) :
    P (place.merge s) (⟨kind, place⟩ :: (ws ++ vs)) :=
  hP.merge ws (hP.token kind place) h

/-- From a token to another one. -/
theorem Covering.enclosed (hP : Covering P) (kind : Token.Kind) (place : Span) (ws : List Token)
    (kind' : Token.Kind) (stop : Span) :
    P (place.merge stop) (⟨kind, place⟩ :: (ws ++ [⟨kind', stop⟩])) :=
  hP.from_token kind place ws (hP.token kind' stop)

end Places

/-! ## Parsers -/

section Parsers

variable {P : Span → List Token → Prop}

/-- What the parser takes from at most `n` tokens is written for its value. -/
def Yields {α : Type} {bound : List Token → Nat} (n : Nat)
    (f : (ts : List Token) → Outcome α (bound ts)) (W : α → List Token → Prop) : Prop :=
  ∀ ⦃ts v rest⦄, ts.length ≤ n → Reads (f ts) v rest → ∃ pre, ts = pre ++ rest ∧ W v pre

section Lists

variable {α : Type} {n : Nat} {mark : Punct} {W : α → List Token → Prop}
  {item : (ts : List Token) → Outcome α ts.length}
  {items : (ts : List Token) → Outcome (List α) ts.length}

/-- Lists with marks, from their items. -/
theorem yields_separated (hlist : Separated mark item items) (hitem : Yields n item W) :
    Yields n items (fun vs ts => vs ≠ [] ∧ Listed mark W vs ts) := by
  intro ts vs rest hle h
  obtain ⟨k, hlen⟩ : ∃ k, ts.length = k := ⟨_, rfl⟩
  induction k using Nat.strongRecOn generalizing ts vs with
  | ind k ih =>
      obtain ⟨first, r, hfirst, hrest⟩ := hlist.reads_items.mp h
      have hshort := hfirst.shorter
      obtain ⟨u, rfl, hu⟩ := hitem hle hfirst
      rcases hrest with ⟨_, rfl, rfl⟩ | ⟨place, r₁, more, rfl, hmore, rfl⟩
      · exact ⟨u, rfl, List.cons_ne_nil _ _, .one hu⟩
      · rw [List.length_cons] at hshort
        obtain ⟨w, rfl, hne, hw⟩ := ih r₁.length (by omega) (by omega) hmore rfl
        obtain ⟨next, more, rfl⟩ := List.exists_cons_of_ne_nil hne
        exact ⟨u ++ ⟨.punct mark, place⟩ :: w, by simp, List.cons_ne_nil _ _, .more hu hw⟩

end Lists

section Expressions

variable {n : Nat}

/-- Expressions between commas are arguments. -/
theorem ExprsWritten.of_listed {es : List Expr} {ts : List Token}
    (h : Listed .comma (Expr.Written P .expression) es ts) : ExprsWritten P es ts := by
  induction h with
  | none => exact .none
  | one he => exact .one he
  | more he _ ih => exact .more he ih

/-- Arguments behind the opening parenthesis, up to and with the closing one. -/
theorem yields_arguments (close : Expectation) (he : Yields n expression (Expr.Written P .expression)) :
    Yields n (arguments close) (fun v ts =>
      ∃ us, ts = us ++ [⟨.punct .rparen, v.2⟩] ∧ ExprsWritten P v.1 us) := by
  intro ts v rest hle h
  obtain ⟨args, stop⟩ := v
  rcases reads_arguments.mp h with ⟨rfl, rfl⟩ | ⟨_, hargs⟩
  · exact ⟨[⟨.punct .rparen, stop⟩], rfl, [], rfl, .none⟩
  · obtain ⟨us, rfl, _, hus⟩ := yields_separated separated_expressions he hle hargs
    exact ⟨us ++ [⟨.punct .rparen, stop⟩], by simp, us, rfl, .of_listed hus⟩

/-- An operator that the parser takes between factors belongs to products. -/
theorem multiplicative_eq_some {kind : Token.Kind} {op : BinOp} (h : multiplicative? kind = some op) :
    kind = op.kind ∧ op.tier = .product := by
  unfold multiplicative? at h
  split at h
  all_goals first | cases h; exact ⟨rfl, rfl⟩ | cases h

/-- An operator that the parser takes between products belongs to sums. -/
theorem additive_eq_some {kind : Token.Kind} {op : BinOp} (h : additive? kind = some op) :
    kind = op.kind ∧ op.tier = .sum := by
  unfold additive? at h
  split at h
  all_goals first | cases h; exact ⟨rfl, rfl⟩ | cases h

/-- An operator that the parser takes between sums is a comparison. -/
theorem relational_eq_some {kind : Token.Kind} {op : BinOp} (h : relational? kind = some op) :
    kind = op.kind ∧ op.tier = .expression := by
  unfold relational? at h
  split at h
  all_goals first | cases h; exact ⟨rfl, rfl⟩ | cases h

/-- Two operands joined by an operator of the position. -/
theorem Expr.Written.join (hP : Covering P) {op : BinOp} {left right : Expr} {us vs : List Token}
    (place : Span) (hl : left.Written P op.left us) (hr : right.Written P op.right vs) :
    (Expr.join op left right).Written P op.tier (us ++ ⟨op.kind, place⟩ :: vs) :=
  .binary (decide_eq_true (Nat.le_refl _)) hl hr (hP.merge [⟨op.kind, place⟩] hl.spanned hr.spanned)

section Rows

variable {level : Token.Kind → Option BinOp} {tier inner : Tier}
  {operand row : (ts : List Token) → Outcome Expr ts.length}
  {tail : Expr → (ts : List Token) → Outcome Expr (ts.length + 1)}

/-- The operators of a level belong to a tier, with the left operand in the same position as the whole
    row and the right one in a tighter one. -/
structure Level (level : Token.Kind → Option BinOp) (tier inner : Tier) : Prop where
  kind_eq : ∀ {kind op}, level kind = some op → kind = op.kind
  tier_eq : ∀ {kind op}, level kind = some op → op.tier = tier ∧ op.left = tier ∧ op.right = inner

theorem level_multiplicative : Level multiplicative? .product .factor := by
  refine ⟨fun h => (multiplicative_eq_some h).1, fun h => ?_⟩
  have htier := (multiplicative_eq_some h).2
  exact ⟨htier, by rw [BinOp.left, htier], by rw [BinOp.right, htier]⟩

theorem level_additive : Level additive? .sum .product := by
  refine ⟨fun h => (additive_eq_some h).1, fun h => ?_⟩
  have htier := (additive_eq_some h).2
  exact ⟨htier, by rw [BinOp.left, htier], by rw [BinOp.right, htier]⟩

/-- A row goes on behind its first operands `us`: with each operator they become the left operand of a
    larger one. -/
theorem yields_rowTail (hP : Covering P) (hlevel : Level level tier inner)
    (hrow : Row level operand row tail) (hoperand : Yields n operand (Expr.Written P inner))
    {left : Expr} {us : List Token} (hleft : left.Written P tier us) :
    Yields n (tail left) (fun e ts => e.Written P tier (us ++ ts)) := by
  intro ts e rest hle h
  obtain ⟨k, hlen⟩ : ∃ k, ts.length = k := ⟨_, rfl⟩
  induction k using Nat.strongRecOn generalizing left us ts with
  | ind k ih =>
      rcases hrow.reads_tail.mp h with ⟨_, rfl, rfl⟩ | ⟨t, op, r, right, r₁, rfl, hop, hright, htail⟩
      · refine ⟨[], rfl, ?_⟩
        show e.Written P tier (us ++ [])
        rwa [List.append_nil]
      · have hshort := hright.shorter
        rw [List.length_cons] at hlen hle
        obtain ⟨vs, rfl, hvs⟩ := hoperand (by omega) hright
        obtain ⟨htier, hl, hr⟩ := hlevel.tier_eq hop
        have hjoin := Expr.Written.join hP t.span (hl ▸ hleft) (hr ▸ hvs)
        rw [htier, ← hlevel.kind_eq hop] at hjoin
        obtain ⟨ws, rfl, hws⟩ := ih r₁.length (by omega) hjoin (by omega) htail rfl
        refine ⟨t :: (vs ++ ws), by simp, ?_⟩
        simpa using hws

/-- A row of operands is written on its tier: operators of one level group to the left. -/
theorem yields_row (hP : Covering P) (hlevel : Level level tier inner)
    (hrow : Row level operand row tail) (hle : tier.rank ≤ inner.rank)
    (hoperand : Yields n operand (Expr.Written P inner)) : Yields n row (Expr.Written P tier) := by
  intro ts e rest hlen h
  obtain ⟨left, r, hfirst, htail⟩ := hrow.reads_row.mp h
  have hshort := hfirst.shorter
  obtain ⟨us, rfl, hus⟩ := hoperand hlen hfirst
  obtain ⟨vs, rfl, hvs⟩ := yields_rowTail hP hlevel hrow hoperand (hus.loosen hle) (by omega) htail
  exact ⟨us ++ vs, by simp, hvs⟩

end Rows

/-- A comparison stands between sums. -/
theorem yields_expression (hP : Covering P) (hsum : Yields n sum (Expr.Written P .sum)) :
    Yields n expression (Expr.Written P .expression) := by
  intro ts e rest hle h
  obtain ⟨left, r, hfirst, hrest⟩ := reads_expression.mp h
  have hshort := hfirst.shorter
  obtain ⟨us, rfl, hus⟩ := hsum hle hfirst
  rcases hrest with ⟨_, rfl, rfl⟩ | ⟨t, op, r₁, right, rfl, hop, hright, rfl⟩
  · exact ⟨us, rfl, hus.loosen (by decide)⟩
  · rw [List.length_cons] at hshort
    obtain ⟨vs, rfl, hvs⟩ := hsum (by omega) hright
    obtain ⟨hkind, htier⟩ := relational_eq_some hop
    have hl : op.left = .sum := by rw [BinOp.left, htier]
    have hr : op.right = .sum := by rw [BinOp.right, htier]
    have hjoin := Expr.Written.join hP t.span (hl ▸ hus) (hr ▸ hvs)
    rw [htier, ← hkind] at hjoin
    exact ⟨us ++ t :: vs, by simp, hjoin⟩

/-- A truth value, read off its word. -/
theorem bool_written (hP : Covering P) (value : Bool) {tier : Tier} {place : Span} :
    (Expr.bool value place).Written P tier [⟨.keyword (boolWord value), place⟩] :=
  .bool (hP.token _ _)

/-- A name, read off its token. -/
theorem ident_written (hP : Covering P) (name : Ident) :
    name.Written P [⟨.ident name.name, name.span⟩] :=
  ⟨_, rfl, rfl, hP.token _ _⟩

/-- Factors, from what is known of fewer tokens. -/
theorem yields_factor (hP : Covering P)
    (ih : ∀ m < n, Yields m factor (Expr.Written P .factor) ∧
      Yields m expression (Expr.Written P .expression)) :
    Yields n factor (Expr.Written P .factor) := by
  intro ts e rest hle h
  cases reads_factor.mp h with
  | int => exact ⟨[_], rfl, .int (hP.token _ _)⟩
  | true => exact ⟨[_], rfl, bool_written hP true⟩
  | false => exact ⟨[_], rfl, bool_written hP false⟩
  | var _ => exact ⟨[_], rfl, .var (hP.token _ _)⟩
  | @call x span opening r args stop _ hargs =>
      rw [List.length_cons, List.length_cons] at hle
      have hexpr := (ih r.length (by omega)).2
      obtain ⟨_, rfl, us, rfl, hus⟩ := yields_arguments .callClose hexpr (Nat.le_refl _) hargs
      refine ⟨⟨.ident x, span⟩ :: ⟨.punct .lparen, opening⟩ :: (us ++ [⟨.punct .rparen, stop⟩]), rfl, ?_⟩
      refine .call (ident_written hP ⟨x, span⟩) hus ?_
      exact hP.enclosed _ _ (⟨.punct .lparen, opening⟩ :: us) _ _
  | @paren span r inner stop _ hinner =>
      rw [List.length_cons] at hle
      obtain ⟨us, rfl, hus⟩ := (ih r.length (by omega)).2 (Nat.le_refl _) hinner
      exact ⟨⟨.punct .lparen, span⟩ :: (us ++ [⟨.punct .rparen, stop⟩]), by simp,
        .paren hus (hP.enclosed _ _ us _ _)⟩
  | @not span r operand _ hoperand =>
      rw [List.length_cons] at hle
      obtain ⟨us, rfl, hus⟩ := (ih r.length (by omega)).1 (Nat.le_refl _) hoperand
      exact ⟨⟨.keyword .not, span⟩ :: us, rfl, .not hus (hP.from_token _ _ [] hus.spanned)⟩

/-- Expressions, by induction on the number of tokens. -/
theorem yields_exprs (hP : Covering P) (n : Nat) : Yields n factor (Expr.Written P .factor) ∧
    Yields n expression (Expr.Written P .expression) := by
  induction n using Nat.strongRecOn with
  | ind n ih =>
      have hfactor := yields_factor hP ih
      have hproduct := yields_row hP level_multiplicative row_product (by decide) hfactor
      have hsum := yields_row hP level_additive row_sum (by decide) hproduct
      exact ⟨hfactor, yields_expression hP hsum⟩

theorem yields_expr (hP : Covering P) (n : Nat) :
    Yields n expression (Expr.Written P .expression) :=
  (yields_exprs hP n).2

end Expressions

section Statements

variable {n : Nat}

/-- Statements, from what is known of blocks with fewer tokens. -/
theorem yields_statement (hP : Covering P) (ih : ∀ m < n, Yields m block (Block.Written P)) :
    Yields n statement (Stmt.Written P) := by
  intro ts s rest hle h
  have hargs : ∀ (close : Expectation) (r : List Token), Yields r.length (arguments close) _ :=
    fun close r => yields_arguments close (yields_expr hP r.length)
  cases reads_statement.mp h with
  | @assign x span arrow r value _ hvalue =>
      obtain ⟨us, rfl, hus⟩ := yields_expr hP _ (Nat.le_refl _) hvalue
      refine ⟨⟨.ident x, span⟩ :: ⟨.operator .assign, arrow⟩ :: us, rfl, ?_⟩
      refine .assign (ident_written hP ⟨x, span⟩) hus ?_
      exact hP.from_token _ _ [⟨.operator .assign, arrow⟩] hus.spanned
  | @call x span opening r args stop _ h =>
      obtain ⟨_, rfl, us, rfl, hus⟩ := hargs _ _ (Nat.le_refl _) h
      refine ⟨⟨.ident x, span⟩ :: ⟨.punct .lparen, opening⟩ :: (us ++ [⟨.punct .rparen, stop⟩]), rfl, ?_⟩
      refine .call (ident_written hP ⟨x, span⟩) hus ?_
      exact hP.enclosed _ _ (⟨.punct .lparen, opening⟩ :: us) _ _
  | @returnNone span _ _ => exact ⟨[⟨.keyword .return, span⟩], rfl, .returnNone (hP.token _ _)⟩
  | @returnSome span r value _ _ hvalue =>
      obtain ⟨us, rfl, hus⟩ := yields_expr hP _ (Nat.le_refl _) hvalue
      exact ⟨⟨.keyword .return, span⟩ :: us, rfl, .returnSome hus (hP.from_token _ _ [] hus.spanned)⟩
  | @ifThen span r cond mid r₁ yes _ hcond hyes _ =>
      have hshort := hcond.shorter
      rw [List.length_cons] at hle hshort
      obtain ⟨us, rfl, hus⟩ := yields_expr hP _ (Nat.le_refl _) hcond
      obtain ⟨vs, rfl, hvs⟩ := ih r₁.length (by omega) (Nat.le_refl _) hyes
      refine ⟨⟨.keyword .if, span⟩ :: (us ++ ⟨.keyword .then, mid⟩ :: vs), by simp, ?_⟩
      have hspan := hP.from_token (.keyword .if) span
        (us ++ [⟨.keyword .then, mid⟩]) hvs.spanned
      exact .ifThen hus hvs (by simpa using hspan)
  | @ifElse span r cond mid r₁ yes mid' r₂ no _ hcond hyes hno =>
      have hshort := hcond.shorter
      have hshort' := hyes.shorter
      rw [List.length_cons] at hle hshort hshort'
      obtain ⟨us, rfl, hus⟩ := yields_expr hP _ (Nat.le_refl _) hcond
      obtain ⟨vs, rfl, hvs⟩ := ih r₁.length (by omega) (Nat.le_refl _) hyes
      obtain ⟨ws, rfl, hws⟩ := ih r₂.length (by omega) (Nat.le_refl _) hno
      refine ⟨⟨.keyword .if, span⟩ ::
        (us ++ ⟨.keyword .then, mid⟩ :: (vs ++ ⟨.keyword .else, mid'⟩ :: ws)), by simp, ?_⟩
      have hspan := hP.from_token (.keyword .if) span
        (us ++ ⟨.keyword .then, mid⟩ :: (vs ++ [⟨.keyword .else, mid'⟩])) hws.spanned
      exact .ifElse hus hvs hws (by simpa using hspan)
  | @«while» span r cond mid r₁ body _ hcond hbody =>
      have hshort := hcond.shorter
      rw [List.length_cons] at hle hshort
      obtain ⟨us, rfl, hus⟩ := yields_expr hP _ (Nat.le_refl _) hcond
      obtain ⟨vs, rfl, hvs⟩ := ih r₁.length (by omega) (Nat.le_refl _) hbody
      refine ⟨⟨.keyword .while, span⟩ :: (us ++ ⟨.keyword .do, mid⟩ :: vs), by simp, ?_⟩
      have hspan := hP.from_token (.keyword .while) span
        (us ++ [⟨.keyword .do, mid⟩]) hvs.spanned
      exact .while hus hvs (by simpa using hspan)
  | @«break» span _ => exact ⟨[⟨.keyword .break, span⟩], rfl, .break (hP.token _ _)⟩
  | @«continue» span _ => exact ⟨[⟨.keyword .continue, span⟩], rfl, .continue (hP.token _ _)⟩
  | @write span opening r args stop _ h =>
      obtain ⟨_, rfl, us, rfl, hus⟩ := hargs _ _ (Nat.le_refl _) h
      refine ⟨⟨.keyword .writeln, span⟩ :: ⟨.punct .lparen, opening⟩ ::
        (us ++ [⟨.punct .rparen, stop⟩]), rfl, .write hus ?_⟩
      exact hP.enclosed _ _ (⟨.punct .lparen, opening⟩ :: us) _ _

/-- The statements of a block. Their last token is the `end`, whose place is given along. -/
theorem yields_statements (hs : Yields n statement (Stmt.Written P)) :
    Yields n statements (fun v ts =>
      StmtsWritten P v.1 ts ∧ ∃ us, ts = us ++ [⟨.keyword .end, v.2⟩]) := by
  intro ts v rest hle h
  obtain ⟨k, hlen⟩ : ∃ k, ts.length = k := ⟨_, rfl⟩
  induction k using Nat.strongRecOn generalizing ts v with
  | ind k ih =>
      cases reads_statements.mp h with
      | @done stop _ => exact ⟨[⟨.keyword .end, stop⟩], rfl, .done, [], rfl⟩
      | @skip span r _ _ hbody =>
          rw [List.length_cons] at hle hlen
          obtain ⟨w, rfl, hw, us, rfl⟩ := ih r.length (by omega) (by omega) hbody rfl
          exact ⟨⟨.punct .semicolon, span⟩ :: (us ++ [⟨.keyword .end, v.2⟩]), rfl, .skip hw,
            ⟨.punct .semicolon, span⟩ :: us, rfl⟩
      | @next _ first span r more stop _ hfirst hmore =>
          have hshort := hfirst.shorter
          rw [List.length_cons] at hshort
          obtain ⟨u, rfl, hu⟩ := hs hle hfirst
          obtain ⟨w, rfl, hw, us, rfl⟩ := ih r.length (by omega) (by omega) hmore rfl
          exact ⟨u ++ ⟨.punct .semicolon, span⟩ :: (us ++ [⟨.keyword .end, stop⟩]), by simp,
            .next hu hw, u ++ ⟨.punct .semicolon, span⟩ :: us, by simp⟩
      | @last _ first stop _ hfirst =>
          obtain ⟨u, rfl, hu⟩ := hs hle hfirst
          exact ⟨u ++ [⟨.keyword .end, stop⟩], by simp, .last hu, u, rfl⟩

/-- Blocks, by induction on the number of tokens. -/
theorem yields_block (hP : Covering P) (n : Nat) : Yields n block (Block.Written P) := by
  induction n using Nat.strongRecOn with
  | ind n ih =>
      intro ts b rest hle h
      obtain ⟨start, r, body, stop, rfl, hbody, rfl⟩ := reads_block.mp h
      rw [List.length_cons] at hle
      have hstatements := yields_statements (yields_statement hP ih)
      obtain ⟨w, rfl, hw, us, rfl⟩ := hstatements (by omega) hbody
      exact ⟨⟨.keyword .begin, start⟩ :: (us ++ [⟨.keyword .end, stop⟩]), rfl, .mk hw
        (hP.enclosed _ _ us _ _)⟩

end Statements

section Programs

/-- There is at least one name. -/
theorem yields_names (hP : Covering P) (n : Nat) :
    Yields n names (fun xs ts => xs ≠ [] ∧ Listed .comma (Ident.Written P) xs ts) := by
  refine yields_separated separated_names (fun ts x rest _ h => ?_)
  exact ⟨[_], reads_identifier.mp h, ident_written hP x⟩

/-- Names that are written have a first token. -/
theorem ne_nil_of_names {names : List Ident} {ts : List Token} (hne : names ≠ [])
    (h : Listed .comma (Ident.Written P) names ts) : ts ≠ [] := by
  cases h with
  | none => exact absurd rfl hne
  | one hx =>
      obtain ⟨t, rfl, _⟩ := hx
      exact List.cons_ne_nil _ _
  | more _ _ => simp

/-- The place of the first token, merged with that of the last one. -/
theorem Covering.ends (hP : Covering P) {ts : List Token} (rest : List Token) (hne : ts ≠ [])
    (ws : List Token) (kind : Token.Kind) (stop : Span) :
    P ((startOf (ts ++ rest)).merge stop) (ts ++ (ws ++ [⟨kind, stop⟩])) := by
  obtain ⟨⟨first, place⟩, us, rfl⟩ := List.exists_cons_of_ne_nil hne
  have hspan := hP.enclosed first place (us ++ ws) kind stop
  simpa [startOf] using hspan

theorem yields_varLine (hP : Covering P) (n : Nat) : Yields n varLine (VarDecl.Written P) := by
  intro ts d rest hle h
  obtain ⟨declared, colon, ty, place, stop, hnames, rfl⟩ := reads_varLine.mp h
  obtain ⟨us, rfl, hne, hus⟩ := yields_names hP n hle hnames
  refine ⟨us ++ [⟨.punct .colon, colon⟩, ⟨.keyword (tyWord ty), place⟩, ⟨.punct .semicolon, stop⟩],
    by simp, .mk hne hus ?_⟩
  exact hP.ends _ (ne_nil_of_names hne hus) [⟨.punct .colon, colon⟩, ⟨.keyword (tyWord ty), place⟩] _ _

/-- The lines of a `var`, in front of variables that are declared behind them. -/
theorem yields_varLines (hP : Covering P) (n : Nat) {more : List VarDecl} {us : List Token}
    (hmore : VarsWritten P true more us) :
    Yields n varLines (fun ds ts => ∃ d ds' ws ws', ds = d :: ds' ∧ ts = ws ++ ws' ∧
      VarDecl.Written P d ws ∧ VarsWritten P true (ds' ++ more) (ws' ++ us)) := by
  intro ts ds rest hle h
  obtain ⟨k, hlen⟩ : ∃ k, ts.length = k := ⟨_, rfl⟩
  induction k using Nat.strongRecOn generalizing ts ds with
  | ind k ih =>
      obtain ⟨first, r, hfirst, hrest⟩ := reads_varLines.mp h
      have hshort := hfirst.shorter
      obtain ⟨ws, rfl, hws⟩ := yields_varLine hP n hle hfirst
      rcases hrest with ⟨_, rfl, rfl⟩ | ⟨_, others, hothers, rfl⟩
      · exact ⟨ws, rfl, first, [], ws, [], rfl, by simp, hws, hmore⟩
      · obtain ⟨_, rfl, d, ds', vs, vs', rfl, rfl, hvs, hvs'⟩ :=
          ih r.length (by omega) (by omega) hothers rfl
        refine ⟨ws ++ (vs ++ vs'), by simp, first, d :: ds', ws, vs ++ vs', rfl, rfl, hws, ?_⟩
        rw [List.append_assoc]
        exact .line hvs hvs'

/-- A `var` may as well stand behind other declarations. -/
theorem VarsWritten.opened {ds : List VarDecl} {ts : List Token} (h : VarsWritten P false ds ts) :
    VarsWritten P true ds ts := by
  cases h with
  | none => exact .none
  | opening hd hds => exact .opening hd hds

/-- Sections of variables are written as they are read; a `var` opens each. -/
theorem yields_varSections (hP : Covering P) (n : Nat) :
    Yields n varSections (VarsWritten P false) := by
  intro ts ds rest hle h
  obtain ⟨k, hlen⟩ : ∃ k, ts.length = k := ⟨_, rfl⟩
  induction k using Nat.strongRecOn generalizing ts ds with
  | ind k ih =>
      rcases reads_varSections.mp h with ⟨_, rfl, rfl⟩ |
        ⟨place, r, first, r₁, more, rfl, hlines, hmore, rfl⟩
      · exact ⟨[], rfl, .none⟩
      · have hshort := hlines.shorter
        rw [List.length_cons] at hle hlen
        obtain ⟨us, rfl, hus⟩ := ih r₁.length (by omega) (by omega) hmore rfl
        obtain ⟨_, rfl, d, ds', ws, ws', rfl, rfl, hws, hws'⟩ :=
          yields_varLines hP n hus.opened (by omega) hlines
        refine ⟨⟨.keyword .var, place⟩ :: (ws ++ (ws' ++ us)), by simp, ?_⟩
        exact .opening hws hws'

theorem yields_param (hP : Covering P) (n : Nat) : Yields n param (Param.Written P) := by
  intro ts d rest hle h
  obtain ⟨declared, colon, ty, stop, hnames, rfl⟩ := reads_param.mp h
  obtain ⟨us, rfl, hne, hus⟩ := yields_names hP n hle hnames
  refine ⟨us ++ [⟨.punct .colon, colon⟩, ⟨.keyword (tyWord ty), stop⟩], by simp, .mk hne hus ?_⟩
  exact hP.ends _ (ne_nil_of_names hne hus) [⟨.punct .colon, colon⟩] _ _

/-- Parameters behind the opening parenthesis. -/
theorem yields_params (hP : Covering P) (n : Nat) (opening : Span) :
    Yields n params (fun groups ts => ParamsWritten P groups (⟨.punct .lparen, opening⟩ :: ts)) := by
  intro ts groups rest hle h
  rcases reads_params.mp h with ⟨closing, rfl, rfl⟩ | ⟨_, closing, hgroups⟩
  · exact ⟨[⟨.punct .rparen, closing⟩], rfl, ParamsWritten.mk .none⟩
  · obtain ⟨us, rfl, _, hus⟩ := yields_separated separated_paramGroups (yields_param hP n) hle hgroups
    exact ⟨us ++ [⟨.punct .rparen, closing⟩], by simp, .mk hus⟩

/-- A procedure is written as it is read, with its word in front. -/
theorem yields_procedure (hP : Covering P) (n : Nat) (start : Span) :
    Yields n (procedure start) (fun v ts => v.Written P (⟨.keyword .procedure, start⟩ :: ts)) := by
  intro ts v rest hle h
  obtain ⟨name, r, groups, semi, r₁, body, stop, rfl, hgroups, hbody, rfl⟩ := reads_procedure.mp h
  obtain ⟨ws, rfl, hws⟩ := yields_block hP _ (Nat.le_refl _) hbody
  have hname := ident_written hP name
  rcases reads_procedureParams.mp hgroups with ⟨_, rfl, rfl⟩ | ⟨opening, r₂, rfl, hparams⟩
  · refine ⟨⟨.ident name.name, name.span⟩ :: ⟨.punct .semicolon, semi⟩ ::
      (ws ++ [⟨.punct .semicolon, stop⟩]), by simp, .bare hname hws ?_⟩
    exact hP.enclosed _ _ (⟨.ident name.name, name.span⟩ :: ⟨.punct .semicolon, semi⟩ :: ws) _ _
  · obtain ⟨us, rfl, hus⟩ := yields_params hP _ opening (Nat.le_refl _) hparams
    refine ⟨⟨.ident name.name, name.span⟩ :: (⟨.punct .lparen, opening⟩ :: us ++
      ⟨.punct .semicolon, semi⟩ :: (ws ++ [⟨.punct .semicolon, stop⟩])), by simp,
      .procedure hname hus hws ?_⟩
    have hspan := hP.enclosed (.keyword .procedure) start (⟨.ident name.name, name.span⟩ ::
      (⟨.punct .lparen, opening⟩ :: us ++ ⟨.punct .semicolon, semi⟩ :: ws)) (.punct .semicolon) stop
    simpa using hspan

/-- A function is written as it is read, with its word in front. -/
theorem yields_function (hP : Covering P) (n : Nat) (start : Span) :
    Yields n (function start) (fun v ts => v.Written P (⟨.keyword .function, start⟩ :: ts)) := by
  intro ts v rest hle h
  obtain ⟨name, opening, r, groups, colon, ty, result, semi, r₁, body, stop, rfl, hgroups, hbody, rfl⟩ :=
    reads_function.mp h
  obtain ⟨ws, rfl, hws⟩ := yields_block hP _ (Nat.le_refl _) hbody
  obtain ⟨us, rfl, hus⟩ := yields_params hP _ opening (Nat.le_refl _) hgroups
  have hname := ident_written hP name
  refine ⟨⟨.ident name.name, name.span⟩ :: (⟨.punct .lparen, opening⟩ :: us ++
    ⟨.punct .colon, colon⟩ :: ⟨.keyword (tyWord ty), result⟩ :: ⟨.punct .semicolon, semi⟩ ::
      (ws ++ [⟨.punct .semicolon, stop⟩])), by simp, .function hname hus hws ?_⟩
  have hspan := hP.enclosed (.keyword .function) start (⟨.ident name.name, name.span⟩ ::
    (⟨.punct .lparen, opening⟩ :: us ++ ⟨.punct .colon, colon⟩ :: ⟨.keyword (tyWord ty), result⟩ ::
      ⟨.punct .semicolon, semi⟩ :: ws)) (.punct .semicolon) stop
  simpa using hspan

/-- Routines are written as they are read, one by one. -/
theorem yields_routines (hP : Covering P) (n : Nat) : Yields n routines (RoutinesWritten P) := by
  intro ts v rest hle h
  obtain ⟨k, hlen⟩ : ∃ k, ts.length = k := ⟨_, rfl⟩
  induction k using Nat.strongRecOn generalizing ts v with
  | ind k ih =>
      rcases reads_routines.mp h with ⟨_, _, rfl, rfl⟩ |
        ⟨start, r, first, r₁, more, rfl, hfirst, hmore, rfl⟩ |
        ⟨start, r, first, r₁, more, rfl, hfirst, hmore, rfl⟩
      · exact ⟨[], rfl, .none⟩
      · have hshort := hfirst.shorter
        rw [List.length_cons] at hle hlen
        obtain ⟨us, rfl, hus⟩ := yields_procedure hP n start (by omega) hfirst
        obtain ⟨vs, rfl, hvs⟩ := ih r₁.length (by omega) (by omega) hmore rfl
        exact ⟨⟨.keyword .procedure, start⟩ :: us ++ vs, by simp, .more hus hvs⟩
      · have hshort := hfirst.shorter
        rw [List.length_cons] at hle hlen
        obtain ⟨us, rfl, hus⟩ := yields_function hP n start (by omega) hfirst
        obtain ⟨vs, rfl, hvs⟩ := ih r₁.length (by omega) (by omega) hmore rfl
        exact ⟨⟨.keyword .function, start⟩ :: us ++ vs, by simp, .more hus hvs⟩

/-- **What is read as a program is written for it**, with places that fit. -/
theorem yields_program (hP : Covering P) (n : Nat) : Yields n program (Program.Written P) := by
  intro ts tree rest hle h
  obtain ⟨vars, r, subs, r₁, main, stop, hvars, hsubs, hmain, rfl⟩ := reads_program.mp h
  obtain ⟨us, rfl, hus⟩ := yields_varSections hP n hle hvars
  obtain ⟨vs, rfl, hvs⟩ := yields_routines hP _ (Nat.le_refl _) hsubs
  obtain ⟨ws, rfl, hws⟩ := yields_block hP _ (Nat.le_refl _) hmain
  refine ⟨us ++ (vs ++ (ws ++ [⟨.punct .dot, stop⟩])), by simp, .mk hus hvs hws ?_⟩
  -- the first token may belong to a variable, to a routine or to the main block
  have hne : us ++ (vs ++ ws) ≠ [] := by
    obtain ⟨_⟩ := hws
    simp
  have hspan := hP.ends (⟨.punct .dot, stop⟩ :: rest) hne [] (.punct .dot) stop
  simpa using hspan

end Programs

end Parsers

/-! ## Streams -/

/-- A stream gives a tree where the parser of programs reads one. -/
theorem next_eq_ok {s : Stream} {tree : Program} {rest : List Token} :
    s.next = (.ok tree, ⟨rest, s.finish⟩) ↔ Reads (program s.tokens) tree rest := by
  unfold Stream.next
  constructor
  · intro h
    split at h
    · next value rest' hshort hok =>
        cases h
        exact ⟨hshort, hok⟩
    · cases h
  · rintro ⟨hshort, hok⟩
    simp only [hok]

/-- The tokens behind a program are left in the stream. -/
theorem reads_of_next {s : Stream} {tree : Program} (h : s.next.1 = .ok tree) :
    Reads (program s.tokens) tree s.next.2.tokens := by
  refine next_eq_ok.mp (Prod.ext h ?_)
  unfold Stream.next
  split
  · rfl
  · rfl

/-- The tokens that were taken for a tree are written for it. -/
theorem written_of_next {P : Span → List Token → Prop} (hP : Covering P) {s : Stream} {tree : Program}
    (h : s.next.1 = .ok tree) : ∃ pre, s.tokens = pre ++ s.next.2.tokens ∧ tree.Written P pre :=
  yields_program hP _ (Nat.le_refl _) (reads_of_next h)

/-! ## Other predicates -/

/-- Places that fit by `P` fit by `Q` on every stretch of the tokens. -/
def Refines (P Q : Span → List Token → Prop) (ts : List Token) : Prop :=
  ∀ s us, us <:+: ts → P s us → Q s us

section Refines

variable {P Q : Span → List Token → Prop} {t : Token} {ts us : List Token}

namespace Refines

theorem whole (h : Refines P Q ts) {s : Span} (hs : P s ts) : Q s ts :=
  h s ts (List.infix_refl ts) hs

theorem sub (h : Refines P Q ts) (hin : us <:+: ts) : Refines P Q us := by
  intro s vs hvs
  exact h s vs (hvs.trans hin)

theorem left (h : Refines P Q (ts ++ us)) : Refines P Q ts :=
  h.sub (List.prefix_append ts us).isInfix

theorem right (h : Refines P Q (ts ++ us)) : Refines P Q us :=
  h.sub (List.suffix_append ts us).isInfix

theorem tail (h : Refines P Q (t :: ts)) : Refines P Q ts :=
  h.sub (List.suffix_cons t ts).isInfix

theorem head (h : Refines P Q (t :: ts)) : Refines P Q [t] :=
  h.sub (List.prefix_append [t] ts).isInfix

end Refines

theorem Ident.Written.imp {name : Ident} (h : name.Written P ts) (hPQ : Refines P Q ts) :
    name.Written Q ts := by
  obtain ⟨t, rfl, hkind, hspan⟩ := h
  exact ⟨t, rfl, hkind, hPQ.whole hspan⟩

mutual

/-- An expression that is written with places of one kind is written with places of a wider one. -/
theorem Expr.Written.imp : ∀ {tier : Tier} {e : Expr} {ts : List Token}, e.Written P tier ts →
    Refines P Q ts → e.Written Q tier ts
  | _, _, _, .int h, hPQ => .int (hPQ.whole h)
  | _, _, _, .bool h, hPQ => .bool (hPQ.whole h)
  | _, _, _, .var h, hPQ => .var (hPQ.whole h)
  | _, _, _, .paren hinner h, hPQ => .paren (hinner.imp hPQ.tail.left) (hPQ.whole h)
  | _, _, _, .not hoperand h, hPQ => .not (hoperand.imp hPQ.tail) (hPQ.whole h)
  | _, _, _, .binary hop hl hr h, hPQ =>
      .binary hop (hl.imp hPQ.left) (hr.imp hPQ.right.tail) (hPQ.whole h)
  | _, _, _, .call hcallee hargs h, hPQ =>
      .call (hcallee.imp hPQ.head) (hargs.imp hPQ.tail.tail.left) (hPQ.whole h)

theorem ExprsWritten.imp : ∀ {es : List Expr} {ts : List Token}, ExprsWritten P es ts →
    Refines P Q ts → ExprsWritten Q es ts
  | _, _, .none, _ => .none
  | _, _, .one he, hPQ => .one (he.imp hPQ)
  | _, _, .more he hes, hPQ => .more (he.imp hPQ.left) (hes.imp hPQ.right.tail)

end

mutual

/-- A statement that is written with places of one kind is written with places of a wider one. -/
theorem Stmt.Written.imp : ∀ {s : Stmt} {ts : List Token}, s.Written P ts → Refines P Q ts →
    s.Written Q ts
  | _, _, .assign hx he h, hPQ => .assign (hx.imp hPQ.head) (he.imp hPQ.tail.tail) (hPQ.whole h)
  | _, _, .call hx hes h, hPQ => .call (hx.imp hPQ.head) (hes.imp hPQ.tail.tail.left) (hPQ.whole h)
  | _, _, .returnNone h, hPQ => .returnNone (hPQ.whole h)
  | _, _, .returnSome he h, hPQ => .returnSome (he.imp hPQ.tail) (hPQ.whole h)
  | _, _, .ifThen hc hy h, hPQ =>
      .ifThen (hc.imp hPQ.tail.left) (hy.imp hPQ.tail.right.tail) (hPQ.whole h)
  | _, _, .ifElse hc hy hn h, hPQ =>
      .ifElse (hc.imp hPQ.tail.left) (hy.imp hPQ.tail.right.tail.left)
        (hn.imp hPQ.tail.right.tail.right.tail) (hPQ.whole h)
  | _, _, .while hc hb h, hPQ =>
      .while (hc.imp hPQ.tail.left) (hb.imp hPQ.tail.right.tail) (hPQ.whole h)
  | _, _, .break h, hPQ => .break (hPQ.whole h)
  | _, _, .continue h, hPQ => .continue (hPQ.whole h)
  | _, _, .write hes h, hPQ => .write (hes.imp hPQ.tail.tail.left) (hPQ.whole h)

theorem Block.Written.imp : ∀ {b : Block} {ts : List Token}, b.Written P ts → Refines P Q ts →
    b.Written Q ts
  | _, _, .mk hss h, hPQ => .mk (hss.imp hPQ.tail) (hPQ.whole h)

theorem StmtsWritten.imp : ∀ {ss : List Stmt} {ts : List Token}, StmtsWritten P ss ts →
    Refines P Q ts → StmtsWritten Q ss ts
  | _, _, .done, _ => .done
  | _, _, .skip hss, hPQ => .skip (hss.imp hPQ.tail)
  | _, _, .next hs hss, hPQ => .next (hs.imp hPQ.left) (hss.imp hPQ.right.tail)
  | _, _, .last hs, hPQ => .last (hs.imp hPQ.left)

end

/-- A list that is written with places of one kind is written with places of a wider one. -/
theorem Listed.imp {α : Type} {mark : Punct} {W W' : α → List Token → Prop} {as : List α}
    (h : Listed mark W as ts) (hPQ : Refines P Q ts)
    (hW : ∀ a us, W a us → Refines P Q us → W' a us) : Listed mark W' as ts := by
  induction h with
  | none => exact .none
  | one ha => exact .one (hW _ _ ha hPQ)
  | more ha _ ih => exact .more (hW _ _ ha hPQ.left) (ih hPQ.right.tail)

theorem VarDecl.Written.imp {d : VarDecl} (h : d.Written P ts) (hPQ : Refines P Q ts) :
    d.Written Q ts := by
  cases h with
  | mk hne hnames h => exact .mk hne (hnames.imp hPQ.left (fun _ _ => .imp)) (hPQ.whole h)

theorem VarsWritten.imp {opened : Bool} {ds : List VarDecl} (h : VarsWritten P opened ds ts)
    (hPQ : Refines P Q ts) : VarsWritten Q opened ds ts := by
  induction h with
  | none => exact .none
  | opening hd _ ih => exact .opening (hd.imp hPQ.tail.left) (ih hPQ.tail.right)
  | line hd _ ih => exact .line (hd.imp hPQ.left) (ih hPQ.right)

theorem Param.Written.imp {p : Param} (h : p.Written P ts) (hPQ : Refines P Q ts) :
    p.Written Q ts := by
  cases h with
  | mk hne hnames h => exact .mk hne (hnames.imp hPQ.left (fun _ _ => .imp)) (hPQ.whole h)

theorem ParamsWritten.imp {groups : List Param} (h : ParamsWritten P groups ts)
    (hPQ : Refines P Q ts) : ParamsWritten Q groups ts := by
  cases h with
  | mk hgroups => exact .mk (hgroups.imp hPQ.tail.left (fun _ _ => .imp))

theorem Routine.Written.imp {r : Routine} (h : r.Written P ts) (hPQ : Refines P Q ts) :
    r.Written Q ts := by
  cases h with
  | bare hx hb h => exact .bare (hx.imp hPQ.tail.head) (hb.imp hPQ.tail.tail.tail.left) (hPQ.whole h)
  | procedure hx hps hb h =>
      exact .procedure (hx.imp hPQ.tail.head) (hps.imp hPQ.tail.tail.left)
        (hb.imp hPQ.tail.tail.right.tail.left) (hPQ.whole h)
  | function hx hps hb h =>
      exact .function (hx.imp hPQ.tail.head) (hps.imp hPQ.tail.tail.left)
        (hb.imp hPQ.tail.tail.right.tail.tail.tail.left) (hPQ.whole h)

theorem RoutinesWritten.imp {rs : List Routine} (h : RoutinesWritten P rs ts)
    (hPQ : Refines P Q ts) : RoutinesWritten Q rs ts := by
  induction h with
  | none => exact .none
  | more hr _ ih => exact .more (hr.imp hPQ.left) (ih hPQ.right)

/-- A program is written with places that fit better, if those of all its stretches do. -/
theorem Program.Written.imp {tree : Program} (h : tree.Written P ts) (hPQ : Refines P Q ts) :
    tree.Written Q ts := by
  cases h with
  | mk hvars hroutines hmain h =>
      exact .mk (hvars.imp hPQ.left) (hroutines.imp hPQ.right.left) (hmain.imp hPQ.right.right.left)
        (hPQ.whole h)

end Refines

end TinyPascal
