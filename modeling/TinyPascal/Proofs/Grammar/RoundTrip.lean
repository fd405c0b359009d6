import TinyPascal.Proofs.Grammar.Normal
import TinyPascal.Proofs.Grammar.Remainder

/-!
# `Proofs.Grammar.RoundTrip` — trees and tokens correspond

Reading what a canonical tree prints as gives the tree back, with the places of the tokens that were
read. Together with the normal form of what is written for a tree, reading and printing undo each other.

## Contents
- **Kinds.** `kinds_cons`, `kinds_append`: tokens are cut as their kinds are.
- **Expressions.** `Expr.ReadAt tier e ts`: in this position the tokens are read as the expression.
  Sums and products group to the left, so there the reading goes on with the rest of the row.
  `Expr.readBack`.
- **Statements** and **declarations**, up to `Program.readBack`.
- **The correspondence.** `trees_correspond_to_tokens`.
-/

namespace TinyPascal

open TinyPascal.Parser TinyPascal.Grammar

/-! ## Kinds -/

section Kinds

variable {ts : List Token} {kind : Token.Kind} {kinds : List Token.Kind}

theorem kinds_cons (h : ts.map Token.kind = kind :: kinds) :
    ∃ place us, ts = ⟨kind, place⟩ :: us ∧ us.map Token.kind = kinds := by
  obtain ⟨t, us, rfl, rfl, hus⟩ := List.map_eq_cons_iff.mp h
  exact ⟨t.span, us, rfl, hus⟩

theorem kinds_one (h : ts.map Token.kind = [kind]) : ∃ place, ts = [⟨kind, place⟩] := by
  obtain ⟨place, us, rfl, hus⟩ := kinds_cons h
  obtain rfl := List.map_eq_nil_iff.mp hus
  exact ⟨place, rfl⟩

theorem kinds_append {others : List Token.Kind} (h : ts.map Token.kind = kinds ++ others) :
    ∃ us vs, ts = us ++ vs ∧ us.map Token.kind = kinds ∧ vs.map Token.kind = others := by
  obtain ⟨us, vs, rfl, hus, hvs⟩ := List.map_eq_append_iff.mp h
  exact ⟨us, vs, rfl, hus, hvs⟩

theorem kinds_parens (h : ts.map Token.kind = parens kinds) :
    ∃ opening us closing, ts = ⟨.punct .lparen, opening⟩ :: (us ++ [⟨.punct .rparen, closing⟩]) ∧
      us.map Token.kind = kinds := by
  obtain ⟨opening, vs, rfl, hvs⟩ := kinds_cons h
  obtain ⟨us, ws, rfl, hus, hws⟩ := kinds_append hvs
  obtain ⟨closing, rfl⟩ := kinds_one hws
  exact ⟨opening, us, closing, rfl, hus⟩

end Kinds

/-! ## Expressions -/

/-- The tokens are read as the expression, if it stands in the position and the next token does not go on
    with it. As the first operands of a row, they are read like any operand in front of the rest. -/
def Expr.ReadAt : Tier → Expr → List Token → Prop
  | .factor, e, ts => ∀ rest, Stops factorGoesOn rest → Reads (factor (ts ++ rest)) e rest
  | .product, e, ts => ∀ rest whole behind, Stops factorGoesOn rest →
      Reads (productTail e rest) whole behind → Reads (product (ts ++ rest)) whole behind
  | .sum, e, ts => ∀ rest whole behind, Stops productGoesOn rest →
      Reads (sumTail e rest) whole behind → Reads (sum (ts ++ rest)) whole behind
  | .expression, e, ts => ∀ rest, Stops exprGoesOn rest → Reads (expression (ts ++ rest)) e rest

/-- The tokens are read as the expression, but for places. -/
def Expr.ReadBack (tier : Tier) (e : Expr) (ts : List Token) : Prop :=
  ∃ e', e'.bare = e.bare ∧ Expr.ReadAt tier e' ts

namespace Expr.ReadAt

variable {e left right : Expr} {ts us vs rest : List Token} {op : BinOp} {place : Span}

/-- A row that ends behind its operands. -/
theorem reads_product (h : e.ReadAt .product ts) (hstop : Stops productGoesOn rest) :
    Reads (product (ts ++ rest)) e rest := by
  have hfactor : Stops factorGoesOn rest := hstop.mono (fun k hk => by simp [productGoesOn, hk])
  have hmul : Stops (fun k => (multiplicative? k).isSome) rest :=
    hstop.mono (fun k hk => by simp [productGoesOn, hk])
  exact h rest e rest hfactor (row_product.reads_tail.mpr (.inl ⟨hmul, rfl, rfl⟩))

theorem reads_sum (h : e.ReadAt .sum ts) (hstop : Stops sumGoesOn rest) :
    Reads (sum (ts ++ rest)) e rest := by
  have hproduct : Stops productGoesOn rest := hstop.mono (fun k hk => by simp [sumGoesOn, hk])
  have hadd : Stops (fun k => (additive? k).isSome) rest :=
    hstop.mono (fun k hk => by simp [sumGoesOn, hk])
  exact h rest e rest hproduct (row_sum.reads_tail.mpr (.inl ⟨hadd, rfl, rfl⟩))

theorem product (h : e.ReadAt .factor ts) : e.ReadAt .product ts := by
  intro rest whole behind hstop htail
  exact row_product.reads_row.mpr ⟨e, rest, h rest hstop, htail⟩

theorem sum (h : e.ReadAt .product ts) : e.ReadAt .sum ts := by
  intro rest whole behind hstop htail
  exact row_sum.reads_row.mpr ⟨e, rest, h.reads_product hstop, htail⟩

theorem expression (h : e.ReadAt .sum ts) : e.ReadAt .expression ts := by
  intro rest hstop
  have hsum : Stops sumGoesOn rest := hstop.mono (fun k hk => by simp [exprGoesOn, hk])
  have hrel : Stops (fun k => (relational? k).isSome) rest :=
    hstop.mono (fun k hk => by simp [exprGoesOn, hk])
  exact reads_expression.mpr ⟨e, rest, h.reads_sum hsum, .inl ⟨hrel, rfl, rfl⟩⟩

/-- What is read in a tight position is read in a looser one. -/
theorem loosen {tier tier' : Tier} (h : e.ReadAt tier ts) (hle : tier'.rank ≤ tier.rank) :
    e.ReadAt tier' ts := by
  cases tier with
  | factor =>
      cases tier' with
      | factor => exact h
      | product => exact h.product
      | sum => exact h.product.sum
      | expression => exact h.product.sum.expression
  | product =>
      cases tier' with
      | factor => exact absurd hle (by decide)
      | product => exact h
      | sum => exact h.sum
      | expression => exact h.sum.expression
  | sum =>
      cases tier' with
      | factor | product => exact absurd hle (by decide)
      | sum => exact h
      | expression => exact h.expression
  | expression =>
      cases tier' with
      | factor | product | sum => exact absurd hle (by decide)
      | expression => exact h

theorem multiplicative_kind (h : op.tier = .product) : multiplicative? op.kind = some op := by
  cases op
  all_goals first | rfl | cases h

theorem additive_kind (h : op.tier = .sum) : additive? op.kind = some op := by
  cases op
  all_goals first | rfl | cases h

theorem relational_kind (h : op.tier = .expression) : relational? op.kind = some op := by
  cases op
  all_goals first | rfl | cases h

/-- Two operands and the operator between them. In a row the operator makes them the left operand of what
    follows. -/
theorem join (hl : left.ReadAt op.left us) (hr : right.ReadAt op.right vs) :
    (Expr.join op left right).ReadAt op.tier (us ++ ⟨op.kind, place⟩ :: vs) := by
  unfold BinOp.left at hl
  unfold BinOp.right at hr
  cases htier : op.tier with
  | factor => exact absurd htier (by cases op <;> decide)
  | product =>
      rw [htier] at hl hr
      have hop := multiplicative_kind htier
      intro rest whole behind hstop htail
      rw [List.append_assoc]
      refine hl _ whole behind (stops_cons.mpr (factor_stops_mul _ (by simp [hop]))) ?_
      exact row_product.reads_tail.mpr (.inr ⟨_, op, vs ++ rest, right, rest, rfl, hop, hr rest hstop,
        htail⟩)
  | sum =>
      rw [htier] at hl hr
      have hop := additive_kind htier
      intro rest whole behind hstop htail
      rw [List.append_assoc]
      refine hl _ whole behind (stops_cons.mpr (product_stops_add _ (by simp [hop]))) ?_
      exact row_sum.reads_tail.mpr (.inr ⟨_, op, vs ++ rest, right, rest, rfl, hop,
        hr.reads_product hstop, htail⟩)
  | expression =>
      rw [htier] at hl hr
      have hop := relational_kind htier
      intro rest hstop
      have hsum : Stops sumGoesOn rest := hstop.mono (fun k hk => by simp [exprGoesOn, hk])
      rw [List.append_assoc]
      refine reads_expression.mpr ⟨left, ⟨op.kind, place⟩ :: (vs ++ rest), ?_, .inr ?_⟩
      · exact hl.reads_sum (stops_cons.mpr (sum_stops_rel _ (by simp [hop])))
      · exact ⟨_, op, vs ++ rest, right, rfl, hop, hr.reads_sum hsum, rfl⟩

end Expr.ReadAt

/-- A factor is read in every position. -/
theorem Expr.ReadBack.of_factor {tier : Tier} {e : Expr} {ts : List Token} (e' : Expr)
    (hbare : e'.bare = e.bare)
    (h : ∀ rest, Stops factorGoesOn rest → Reads (factor (ts ++ rest)) e' rest) :
    Expr.ReadBack tier e ts := by
  have hfactor : e'.ReadAt .factor ts := h
  refine ⟨e', hbare, hfactor.loosen ?_⟩
  cases tier
  all_goals decide

/-- Lists with marks, if their items are read back and the mark does not go on with an item. -/
theorem readBack_separated {α β : Type} {mark : Punct} {item : (ts : List Token) → Outcome α ts.length}
    {items : (ts : List Token) → Outcome (List α) ts.length} (hlist : Separated mark item items)
    {f : α → List Token.Kind} {bare : α → β} {goesOn : Token.Kind → Bool}
    (hmark : goesOn (.punct mark) = false) {as : List α} (hne : as ≠ [])
    (hitem : ∀ a ∈ as, ∀ us : List Token, us.map Token.kind = f a →
      ∃ a', bare a' = bare a ∧ ∀ rest, Stops goesOn rest → Reads (item (us ++ rest)) a' rest)
    {ts : List Token} (hts : ts.map Token.kind = between mark (as.map f)) :
    ∃ as', as'.map bare = as.map bare ∧
      ∀ rest, Stops (fun k => goesOn k || is (.punct mark) k) rest →
        Reads (items (ts ++ rest)) as' rest := by
  induction as generalizing ts with
  | nil => exact absurd rfl hne
  | cons a as ih =>
      cases as with
      | nil =>
          obtain ⟨a', hbare, hread⟩ := hitem a List.mem_cons_self ts hts
          refine ⟨[a'], by rw [List.map_singleton, List.map_singleton, hbare], fun rest hstop => ?_⟩
          refine hlist.reads_items.mpr ⟨a', rest, hread rest ?_, .inl ⟨?_, rfl, rfl⟩⟩
          · exact hstop.mono (fun k hk => by simp [hk])
          · exact hstop.mono (fun k hk => by simp [hk])
      | cons b as =>
          obtain ⟨us, vs, rfl, hus, hvs⟩ := kinds_append hts
          obtain ⟨place, ws, rfl, hws⟩ := kinds_cons hvs
          obtain ⟨a', hbare, hread⟩ := hitem a List.mem_cons_self us hus
          obtain ⟨as', hbares, hreads⟩ := ih (List.cons_ne_nil _ _)
            (fun x hx => hitem x (List.mem_cons_of_mem _ hx)) hws
          refine ⟨a' :: as', by rw [List.map_cons, List.map_cons (l := b :: as), hbare, hbares],
            fun rest hstop => ?_⟩
          rw [List.append_assoc]
          exact hlist.reads_items.mpr ⟨a', _, hread _ (stops_cons.mpr hmark), .inr
            ⟨place, ws ++ rest, as', rfl, hreads rest hstop, rfl⟩⟩

@[simp] theorem bareArgs_eq_map (es : List Expr) : bareArgs es = es.map Expr.bare := by
  induction es with
  | nil => rfl
  | cons e es ih => rw [bareArgs, ih, List.map_cons]

theorem Expr.print_starts (e : Expr) :
    ∃ kind more, e.print = kind :: more ∧ startsExpr kind = true := by
  cases e with
  | bool value _ =>
      rw [Expr.print]
      refine ⟨_, _, rfl, ?_⟩
      cases value
      all_goals rfl
  | binary op left right _ =>
      -- an operation starts as its left operand does
      obtain ⟨kind, more, hprint, hkind⟩ := Expr.print_starts left
      rw [Expr.print, hprint, List.cons_append]
      exact ⟨_, _, rfl, hkind⟩
  | _ =>
      rw [Expr.print]
      exact ⟨_, _, rfl, rfl⟩

/-- The first token of what an expression prints as starts an expression. -/
theorem starts_of_print {e : Expr} {ts : List Token} {behind : List Token.Kind}
    (h : ts.map Token.kind = e.print ++ behind) :
    ∃ t us, ts = t :: us ∧ startsExpr t.kind = true := by
  obtain ⟨kind, more, hprint, hkind⟩ := e.print_starts
  rw [hprint] at h
  obtain ⟨place, us, rfl, _⟩ := kinds_cons h
  exact ⟨_, us, rfl, hkind⟩

/-- Arguments, if each of them is read back. -/
theorem readBack_args {args : List Expr} {ts : List Token}
    (h : ∀ e ∈ args, ∀ us : List Token, us.map Token.kind = e.print → Expr.ReadBack .expression e us)
    (hts : ts.map Token.kind = between .comma (args.map Expr.print)) :
    ∃ args', bareArgs args' = bareArgs args ∧ ∀ close stop rest,
      Reads (arguments close (ts ++ ⟨.punct .rparen, stop⟩ :: rest)) (args', stop) rest := by
  cases args with
  | nil =>
      obtain rfl := List.map_eq_nil_iff.mp hts
      exact ⟨[], rfl, fun close stop rest => reads_arguments.mpr (.inl ⟨rfl, rfl⟩)⟩
  | cons first others =>
      obtain ⟨args', hbare, hread⟩ := readBack_separated separated_expressions rfl
        (List.cons_ne_nil first others) h hts
      refine ⟨args', by rw [bareArgs_eq_map, bareArgs_eq_map, hbare], fun close stop rest => ?_⟩
      refine reads_arguments.mpr (.inr ⟨?_, hread _ (stops_cons.mpr rfl)⟩)
      -- an expression does not start with a closing parenthesis
      obtain ⟨more, hmore⟩ := between_cons .comma first.print (others.map Expr.print) []
      rw [List.append_nil] at hmore
      rw [List.map_cons, hmore] at hts
      obtain ⟨⟨kind, place⟩, us, rfl, hkind⟩ := starts_of_print hts
      refine stops_cons.mpr (decide_eq_false ?_)
      rintro rfl
      cases hkind

mutual

/-- **A canonical expression is read back**, with the places of the tokens. -/
theorem Expr.readBack : ∀ (e : Expr) {tier : Tier} {ts : List Token}, e.canonical tier = true →
    ts.map Token.kind = e.print → Expr.ReadBack tier e ts
  | .int value _, tier, ts, _, hts => by
      rw [Expr.print] at hts
      obtain ⟨place, rfl⟩ := kinds_one hts
      exact .of_factor (.int value place) (by rw [Expr.bare, Expr.bare])
        (fun rest _ => reads_factor.mpr .int)
  | .bool value _, tier, ts, _, hts => by
      rw [Expr.print] at hts
      obtain ⟨place, rfl⟩ := kinds_one hts
      refine .of_factor (.bool value place) (by rw [Expr.bare, Expr.bare]) (fun rest _ => ?_)
      cases value with
      | true => exact reads_factor.mpr .true
      | false => exact reads_factor.mpr .false
  | .var name _, tier, ts, _, hts => by
      rw [Expr.print] at hts
      obtain ⟨place, rfl⟩ := kinds_one hts
      exact .of_factor (.var name place) (by rw [Expr.bare, Expr.bare])
        (fun rest hstop => reads_factor.mpr (.var hstop))
  | .paren inner _, tier, ts, hcanon, hts => by
      rw [Expr.print] at hts
      rw [Expr.canonical] at hcanon
      obtain ⟨opening, us, closing, rfl, hus⟩ := kinds_parens hts
      obtain ⟨inner', hbare, hread⟩ := Expr.readBack inner hcanon hus
      refine .of_factor (.paren inner' (opening.merge closing))
        (by rw [Expr.bare, Expr.bare, hbare]) (fun rest _ => ?_)
      rw [List.cons_append, List.append_assoc]
      exact reads_factor.mpr (.paren (hread _ (stops_cons.mpr rfl)))
  | .not operand _, tier, ts, hcanon, hts => by
      rw [Expr.print] at hts
      rw [Expr.canonical] at hcanon
      obtain ⟨place, us, rfl, hus⟩ := kinds_cons hts
      obtain ⟨operand', hbare, hread⟩ := Expr.readBack operand hcanon hus
      refine .of_factor (.not operand' (place.merge operand'.span))
        (by rw [Expr.bare, Expr.bare, hbare]) (fun rest hstop => ?_)
      exact reads_factor.mpr (.not (hread rest hstop))
  | .binary op left right _, tier, ts, hcanon, hts => by
      rw [Expr.print] at hts
      rw [Expr.canonical, Bool.and_eq_true, Bool.and_eq_true] at hcanon
      obtain ⟨⟨hadmits, hl⟩, hr⟩ := hcanon
      obtain ⟨us, ws, rfl, hus, hws⟩ := kinds_append hts
      obtain ⟨place, vs, rfl, hvs⟩ := kinds_cons hws
      obtain ⟨left', hbareL, hreadL⟩ := Expr.readBack left hl hus
      obtain ⟨right', hbareR, hreadR⟩ := Expr.readBack right hr hvs
      refine ⟨.join op left' right', ?_, (hreadL.join hreadR).loosen (of_decide_eq_true hadmits)⟩
      rw [Expr.join, Expr.bare, Expr.bare, hbareL, hbareR]
  | .call callee args _, tier, ts, hcanon, hts => by
      rw [Expr.print, printEach_eq_map] at hts
      rw [Expr.canonical] at hcanon
      obtain ⟨place, us, rfl, hus⟩ := kinds_cons hts
      obtain ⟨opening, vs, closing, rfl, hvs⟩ := kinds_parens hus
      obtain ⟨args', hbare, hread⟩ := readBack_args (readBackEach args hcanon) hvs
      refine .of_factor (.call ⟨callee.name, place⟩ args' (place.merge closing))
        (by rw [Expr.bare, Expr.bare, hbare]; rfl) (fun rest _ => ?_)
      rw [List.cons_append, List.cons_append, List.append_assoc]
      exact reads_factor.mpr (.call (hread _ _ _))

/-- The arguments of a canonical call are read back one by one. -/
theorem readBackEach : ∀ (es : List Expr), canonicalArgs es = true →
    ∀ e ∈ es, ∀ us : List Token, us.map Token.kind = e.print → Expr.ReadBack .expression e us
  | [], _, e, he, _, _ => by cases he
  | first :: others, hcanon, e, he, us, hus => by
      rw [canonicalArgs, Bool.and_eq_true] at hcanon
      rcases List.mem_cons.mp he with heq | he
      · rw [heq] at hus ⊢
        exact Expr.readBack first hcanon.1 hus
      · exact readBackEach others hcanon.2 e he us hus

end

/-! ## Statements -/

/-- The tokens are read as the statement, but for places, if the next token ends it. -/
def Stmt.ReadBack (s : Stmt) (ts : List Token) : Prop :=
  ∃ s' : Stmt, s'.bare = s.bare ∧
    ∀ rest, Stops stmtGoesOn rest → Reads (statement (ts ++ rest)) s' rest

/-- The tokens are read as the block, but for places, whatever follows them. -/
def Block.ReadBack (b : Block) (ts : List Token) : Prop :=
  ∃ b' : Block, b'.bare = b.bare ∧ ∀ rest, Reads (block (ts ++ rest)) b' rest

theorem endsReturn_of_print {e : Expr} {ts rest : List Token} (h : ts.map Token.kind = e.print) :
    endsReturn (ts ++ rest) = false := by
  rw [← List.append_nil e.print] at h
  obtain ⟨⟨kind, place⟩, us, rfl, hkind⟩ := starts_of_print h
  simp only [startsExpr] at hkind
  split at hkind
  all_goals first | rfl | cases hkind

section Conditions

variable {cond : Expr} {yes no body : Block} {span place mid mid' : Span} {us vs ws : List Token}

/-- An `if` without `else` is read back if its condition and its block are. -/
theorem Stmt.ReadBack.ifThen (hcond : cond.ReadBack .expression us) (hyes : yes.ReadBack vs) :
    (Stmt.ifThen cond yes span).ReadBack
      (⟨.keyword .if, place⟩ :: (us ++ ⟨.keyword .then, mid⟩ :: vs)) := by
  obtain ⟨cond', hbareC, hreadC⟩ := hcond
  obtain ⟨yes', hbareY, hreadY⟩ := hyes
  refine ⟨.ifThen cond' yes' (place.merge yes'.span), ?_, fun rest hstop => ?_⟩
  · rw [Stmt.bare, Stmt.bare, hbareC, hbareY]
  · rw [List.cons_append, List.append_assoc]
    -- no `else` goes on with the statement
    exact reads_statement.mpr (.ifThen (hreadC _ (stops_cons.mpr rfl)) (hreadY rest)
      (stops_of_stmt hstop).2)

/-- An `if` with `else` is read back if its condition and both of its blocks are. -/
theorem Stmt.ReadBack.ifElse (hcond : cond.ReadBack .expression us) (hyes : yes.ReadBack vs)
    (hno : no.ReadBack ws) :
    (Stmt.ifElse cond yes no span).ReadBack (⟨.keyword .if, place⟩ ::
      (us ++ ⟨.keyword .then, mid⟩ :: (vs ++ ⟨.keyword .else, mid'⟩ :: ws))) := by
  obtain ⟨cond', hbareC, hreadC⟩ := hcond
  obtain ⟨yes', hbareY, hreadY⟩ := hyes
  obtain ⟨no', hbareN, hreadN⟩ := hno
  refine ⟨.ifElse cond' yes' no' (place.merge no'.span), ?_, fun rest _ => ?_⟩
  · rw [Stmt.bare, Stmt.bare, hbareC, hbareY, hbareN]
  · rw [List.cons_append, List.append_assoc, List.cons_append, List.append_assoc]
    exact reads_statement.mpr (.ifElse (hreadC _ (stops_cons.mpr rfl)) (hreadY _) (hreadN rest))

/-- A `while` is read back if its condition and its body are. -/
theorem Stmt.ReadBack.while (hcond : cond.ReadBack .expression us) (hbody : body.ReadBack vs) :
    (Stmt.while cond body span).ReadBack
      (⟨.keyword .while, place⟩ :: (us ++ ⟨.keyword .do, mid⟩ :: vs)) := by
  obtain ⟨cond', hbareC, hreadC⟩ := hcond
  obtain ⟨body', hbareB, hreadB⟩ := hbody
  refine ⟨.while cond' body' (place.merge body'.span), ?_, fun rest _ => ?_⟩
  · rw [Stmt.bare, Stmt.bare, hbareC, hbareB]
  · rw [List.cons_append, List.append_assoc]
    exact reads_statement.mpr (.while (hreadC _ (stops_cons.mpr rfl)) (hreadB rest))

end Conditions

mutual

/-- **A canonical statement is read back.** -/
theorem Stmt.readBack : ∀ (s : Stmt) {ts : List Token}, s.canonical = true →
    ts.map Token.kind = s.print → s.ReadBack ts
  | .assign target value _, ts, hcanon, hts => by
      rw [Stmt.print] at hts
      rw [Stmt.canonical] at hcanon
      obtain ⟨place, us, rfl, hus⟩ := kinds_cons hts
      obtain ⟨arrow, vs, rfl, hvs⟩ := kinds_cons hus
      obtain ⟨value', hbare, hread⟩ := value.readBack hcanon hvs
      refine ⟨.assign ⟨target.name, place⟩ value' (place.merge value'.span), ?_, fun rest hstop => ?_⟩
      · rw [Stmt.bare, Stmt.bare, hbare]
        rfl
      · exact reads_statement.mpr (.assign (hread rest (stops_of_stmt hstop).1))
  | .call callee args _, ts, hcanon, hts => by
      rw [Stmt.print, printArgs] at hts
      rw [Stmt.canonical] at hcanon
      obtain ⟨place, us, rfl, hus⟩ := kinds_cons hts
      obtain ⟨opening, vs, closing, rfl, hvs⟩ := kinds_parens hus
      obtain ⟨args', hbare, hread⟩ := readBack_args (readBackEach args hcanon) hvs
      refine ⟨.call ⟨callee.name, place⟩ args' (place.merge closing), ?_, fun rest _ => ?_⟩
      · rw [Stmt.bare, Stmt.bare, hbare]
        rfl
      · rw [List.cons_append, List.cons_append, List.append_assoc]
        exact reads_statement.mpr (.call (hread _ _ _))
  | .return none _, ts, _, hts => by
      rw [Stmt.print] at hts
      obtain ⟨place, rfl⟩ := kinds_one hts
      refine ⟨.return none place, ?_, fun rest hstop => ?_⟩
      · rw [Stmt.bare, Stmt.bare]
      · exact reads_statement.mpr (.returnNone (endsReturn_of_stops hstop))
  | .return (some value) _, ts, hcanon, hts => by
      rw [Stmt.print] at hts
      rw [Stmt.canonical] at hcanon
      obtain ⟨place, us, rfl, hus⟩ := kinds_cons hts
      obtain ⟨value', hbare, hread⟩ := value.readBack hcanon hus
      refine ⟨.return (some value') (place.merge value'.span), ?_, fun rest hstop => ?_⟩
      · rw [Stmt.bare, Stmt.bare, Option.map_some, Option.map_some, hbare]
      · exact reads_statement.mpr (.returnSome (endsReturn_of_print hus)
          (hread rest (stops_of_stmt hstop).1))
  | .ifThen cond yes _, ts, hcanon, hts => by
      rw [Stmt.print] at hts
      rw [Stmt.canonical, Bool.and_eq_true] at hcanon
      obtain ⟨place, us, rfl, hus⟩ := kinds_cons hts
      obtain ⟨vs, ws, rfl, hvs, hws⟩ := kinds_append hus
      obtain ⟨mid, zs, rfl, hzs⟩ := kinds_cons hws
      exact .ifThen (cond.readBack hcanon.1 hvs) (Block.readBack yes hcanon.2 hzs)
  | .ifElse cond yes no _, ts, hcanon, hts => by
      rw [Stmt.print] at hts
      rw [Stmt.canonical, Bool.and_eq_true, Bool.and_eq_true] at hcanon
      obtain ⟨place, us, rfl, hus⟩ := kinds_cons hts
      obtain ⟨vs, ws, rfl, hvs, hws⟩ := kinds_append hus
      obtain ⟨mid, zs, rfl, hzs⟩ := kinds_cons hws
      obtain ⟨as, bs, rfl, has, hbs⟩ := kinds_append hzs
      obtain ⟨mid', cs, rfl, hcs⟩ := kinds_cons hbs
      exact .ifElse (cond.readBack hcanon.1.1 hvs) (Block.readBack yes hcanon.1.2 has)
        (Block.readBack no hcanon.2 hcs)
  | .while cond body _, ts, hcanon, hts => by
      rw [Stmt.print] at hts
      rw [Stmt.canonical, Bool.and_eq_true] at hcanon
      obtain ⟨place, us, rfl, hus⟩ := kinds_cons hts
      obtain ⟨vs, ws, rfl, hvs, hws⟩ := kinds_append hus
      obtain ⟨mid, zs, rfl, hzs⟩ := kinds_cons hws
      exact .while (cond.readBack hcanon.1 hvs) (Block.readBack body hcanon.2 hzs)
  | .break _, ts, _, hts => by
      rw [Stmt.print] at hts
      obtain ⟨place, rfl⟩ := kinds_one hts
      refine ⟨.break place, ?_, fun rest _ => reads_statement.mpr .break⟩
      rw [Stmt.bare, Stmt.bare]
  | .continue _, ts, _, hts => by
      rw [Stmt.print] at hts
      obtain ⟨place, rfl⟩ := kinds_one hts
      refine ⟨.continue place, ?_, fun rest _ => reads_statement.mpr .continue⟩
      rw [Stmt.bare, Stmt.bare]
  | .write args _, ts, hcanon, hts => by
      rw [Stmt.print, printArgs] at hts
      rw [Stmt.canonical] at hcanon
      obtain ⟨place, us, rfl, hus⟩ := kinds_cons hts
      obtain ⟨opening, vs, closing, rfl, hvs⟩ := kinds_parens hus
      obtain ⟨args', hbare, hread⟩ := readBack_args (readBackEach args hcanon) hvs
      refine ⟨.write args' (place.merge closing), ?_, fun rest _ => ?_⟩
      · rw [Stmt.bare, Stmt.bare, hbare]
      · rw [List.cons_append, List.cons_append, List.append_assoc]
        exact reads_statement.mpr (.write (hread _ _ _))

/-- A canonical block is read back from its print. -/
theorem Block.readBack : ∀ (b : Block) {ts : List Token}, b.canonical = true →
    ts.map Token.kind = b.print → b.ReadBack ts
  | ⟨ss, _⟩, ts, hcanon, hts => by
      rw [Block.print] at hts
      rw [Block.canonical] at hcanon
      obtain ⟨start, us, rfl, hus⟩ := kinds_cons hts
      obtain ⟨vs, ws, rfl, hvs, hws⟩ := kinds_append hus
      obtain ⟨stop, rfl⟩ := kinds_one hws
      obtain ⟨ss', hbare, hread⟩ := readBackStmts ss hcanon hvs
      refine ⟨⟨ss', start.merge stop⟩, ?_, fun rest => ?_⟩
      · rw [Block.bare, Block.bare, hbare]
      · rw [List.cons_append, List.append_assoc]
        exact reads_block.mpr ⟨start, _, ss', stop, rfl, hread stop rest, rfl⟩

/-- Canonical statements are read back from their print, up to the `end` behind them. -/
theorem readBackStmts : ∀ (ss : List Stmt) {ts : List Token}, canonicalStmts ss = true →
    ts.map Token.kind = between .semicolon (printStmts ss) →
    ∃ ss', bareStmts ss' = bareStmts ss ∧ ∀ stop rest,
      Reads (statements (ts ++ ⟨.keyword .end, stop⟩ :: rest)) (ss', stop) rest
  | [], ts, _, hts => by
      obtain rfl := List.map_eq_nil_iff.mp hts
      exact ⟨[], rfl, fun stop rest => reads_statements.mpr .done⟩
  | [s], ts, hcanon, hts => by
      rw [canonicalStmts, Bool.and_eq_true] at hcanon
      obtain ⟨s', hbare, hread⟩ := Stmt.readBack s hcanon.1 hts
      refine ⟨[s'], by rw [bareStmts, bareStmts, hbare]; rfl, fun stop rest => ?_⟩
      exact reads_statements.mpr (.last (hread _ (stops_cons.mpr rfl)))
  | s :: next :: ss, ts, hcanon, hts => by
      rw [canonicalStmts, Bool.and_eq_true] at hcanon
      obtain ⟨us, vs, rfl, hus, hvs⟩ := kinds_append hts
      obtain ⟨place, ws, rfl, hws⟩ := kinds_cons hvs
      obtain ⟨s', hbare, hread⟩ := Stmt.readBack s hcanon.1 hus
      obtain ⟨ss', hbares, hreads⟩ := readBackStmts (next :: ss) hcanon.2 hws
      refine ⟨s' :: ss', by rw [bareStmts, hbare, hbares]; rfl, fun stop rest => ?_⟩
      rw [List.append_assoc]
      exact reads_statements.mpr (.next (hread _ (stops_cons.mpr rfl)) (hreads stop rest))

end

/-! ## Declarations -/

section Declarations

variable {ts : List Token}

/-- A printed list of names is read back, if no comma follows it. -/
theorem readBack_names {names : List Ident} (hne : names ≠ [])
    (hts : ts.map Token.kind = printNames names) :
    ∃ names' : List Ident, names'.map Ident.bare = names.map Ident.bare ∧
      ∀ rest, Stops (is (.punct .comma)) rest → Reads (Parser.names (ts ++ rest)) names' rest := by
  have hitem : ∀ x ∈ names, ∀ us : List Token, us.map Token.kind = [.ident x.name] →
      ∃ x' : Ident, x'.bare = x.bare ∧
        ∀ rest, Stops (fun _ => false) rest → Reads (identifier (us ++ rest)) x' rest := by
    intro x _ us hus
    obtain ⟨place, rfl⟩ := kinds_one hus
    exact ⟨⟨x.name, place⟩, rfl, fun rest _ => reads_identifier.mpr rfl⟩
  exact readBack_separated separated_names rfl hne hitem hts

theorem ne_nil_of_printNames {names : List Ident} (hne : names ≠ [])
    (hts : ts.map Token.kind = printNames names) : ts ≠ [] := by
  rintro rfl
  obtain ⟨x, more, hstarts⟩ := printNames_starts hne []
  rw [← hts] at hstarts
  cases hstarts

/-- A declaration of variables, behind its `var`. -/
theorem VarDecl.readBack {d : VarDecl} (hne : d.names ≠ [])
    (hts : ts.map Token.kind = printNames d.names ++
      [.punct .colon, .keyword (tyWord d.ty), .punct .semicolon]) :
    ∃ d' : VarDecl, d'.bare = d.bare ∧ ∀ rest, Reads (varLine (ts ++ rest)) d' rest := by
  obtain ⟨us, vs, rfl, hus, hvs⟩ := kinds_append hts
  obtain ⟨colon, ws, rfl, hws⟩ := kinds_cons hvs
  obtain ⟨place, zs, rfl, hzs⟩ := kinds_cons hws
  obtain ⟨stop, rfl⟩ := kinds_one hzs
  obtain ⟨names', hbare, hread⟩ := readBack_names hne hus
  refine ⟨⟨names', d.ty, (startOf us).merge stop⟩, ?_, fun rest => ?_⟩
  · rw [VarDecl.bare, VarDecl.bare, hbare]
  · rw [List.append_assoc]
    refine reads_varLine.mpr ⟨names', colon, d.ty, place, stop, hread _ (stops_cons.mpr rfl), ?_⟩
    rw [startOf_append (ne_nil_of_printNames hne hus)]

/-- Variables, each declared behind its own `var`. -/
theorem readBack_vars {ds : List VarDecl} (hne : ∀ d ∈ ds, d.names ≠ [])
    (hts : ts.map Token.kind = ds.flatMap VarDecl.print) :
    ∃ ds' : List VarDecl, ds'.map VarDecl.bare = ds.map VarDecl.bare ∧
      ∀ rest, Stops (fun k => isName k || is (.keyword .var) k) rest →
        Reads (varSections (ts ++ rest)) ds' rest := by
  induction ds generalizing ts with
  | nil =>
      obtain rfl := List.map_eq_nil_iff.mp hts
      refine ⟨[], rfl, fun rest hstop => reads_varSections.mpr (.inl ⟨?_, rfl, rfl⟩)⟩
      exact hstop.mono (fun k hk => by simp [hk])
  | cons d ds ih =>
      rw [List.flatMap_cons, VarDecl.print, List.cons_append] at hts
      obtain ⟨place, us, rfl, hus⟩ := kinds_cons hts
      obtain ⟨vs, ws, rfl, hvs, hws⟩ := kinds_append hus
      obtain ⟨d', hbare, hread⟩ := VarDecl.readBack (hne d List.mem_cons_self) hvs
      obtain ⟨ds', hbares, hreads⟩ := ih (fun x hx => hne x (List.mem_cons_of_mem _ hx)) hws
      refine ⟨d' :: ds', by rw [List.map_cons, List.map_cons, hbare, hbares], fun rest hstop => ?_⟩
      -- no name follows the line: there is another `var`, or nothing more is declared
      have hname : Stops isName (ws ++ rest) := by
        cases ds with
        | nil =>
            obtain rfl := List.map_eq_nil_iff.mp hws
            exact hstop.mono (fun k hk => by simp [hk])
        | cons next ds =>
            obtain ⟨place', zs, rfl, _⟩ := kinds_cons hws
            exact stops_cons.mpr rfl
      have hlines : Reads (varLines (vs ++ (ws ++ rest))) [d'] (ws ++ rest) :=
        reads_varLines.mpr ⟨d', _, hread _, .inl ⟨hname, rfl, rfl⟩⟩
      rw [List.cons_append, List.append_assoc]
      exact reads_varSections.mpr (.inr ⟨place, _, [d'], _, ds', rfl, hlines, hreads rest hstop, rfl⟩)

/-- A printed group of parameters with at least one name is read back. -/
theorem Param.readBack {p : Param} (hne : p.names ≠ []) (hts : ts.map Token.kind = p.print) :
    ∃ p' : Param, p'.bare = p.bare ∧
      ∀ rest, Stops (fun _ => false) rest → Reads (param (ts ++ rest)) p' rest := by
  obtain ⟨us, vs, rfl, hus, hvs⟩ := kinds_append hts
  obtain ⟨colon, ws, rfl, hws⟩ := kinds_cons hvs
  obtain ⟨stop, rfl⟩ := kinds_one hws
  obtain ⟨names', hbare, hread⟩ := readBack_names hne hus
  refine ⟨⟨names', p.ty, (startOf us).merge stop⟩, ?_, fun rest _ => ?_⟩
  · rw [Param.bare, Param.bare, hbare]
  · rw [List.append_assoc]
    refine reads_param.mpr ⟨names', colon, p.ty, stop, hread _ (stops_cons.mpr rfl), ?_⟩
    rw [startOf_append (ne_nil_of_printNames hne hus)]

/-- Parameters, behind the opening parenthesis. -/
theorem readBack_params {groups : List Param} (hne : ∀ p ∈ groups, p.names ≠ [])
    (hts : ts.map Token.kind = between .semicolon (groups.map Param.print)) :
    ∃ groups' : List Param, groups'.map Param.bare = groups.map Param.bare ∧
      ∀ closing rest, Reads (params (ts ++ ⟨.punct .rparen, closing⟩ :: rest)) groups' rest := by
  cases groups with
  | nil =>
      obtain rfl := List.map_eq_nil_iff.mp hts
      exact ⟨[], rfl, fun closing rest => reads_params.mpr (.inl ⟨closing, rfl, rfl⟩)⟩
  | cons first others =>
      obtain ⟨groups', hbare, hread⟩ := readBack_separated separated_paramGroups rfl
        (List.cons_ne_nil first others) (fun p hp us hus => Param.readBack (hne p hp) hus) hts
      refine ⟨groups', hbare, fun closing rest => ?_⟩
      refine reads_params.mpr (.inr ⟨?_, closing, hread _ (stops_cons.mpr rfl)⟩)
      -- a group of parameters starts with a name
      obtain ⟨more, hmore⟩ := between_cons .semicolon first.print (others.map Param.print) []
      rw [List.append_nil] at hmore
      obtain ⟨x, rest', hstarts⟩ := printNames_starts (hne first List.mem_cons_self)
        ([.punct .colon, .keyword (tyWord first.ty)] ++ more)
      rw [List.map_cons, hmore, Param.print, List.append_assoc, hstarts] at hts
      obtain ⟨place, us, rfl, _⟩ := kinds_cons hts
      exact stops_cons.mpr rfl

/-- The parameters of a procedure, with their parentheses or with none, in front of a semicolon. -/
theorem readBack_procedureParams {groups : List Param} (hne : ∀ p ∈ groups, p.names ≠ [])
    (hts : ts.map Token.kind = if groups.isEmpty then [] else printParams groups) :
    ∃ groups' : List Param, groups'.map Param.bare = groups.map Param.bare ∧
      ∀ semi rest, Reads (procedureParams (ts ++ ⟨.punct .semicolon, semi⟩ :: rest)) groups'
        (⟨.punct .semicolon, semi⟩ :: rest) := by
  by_cases hempty : groups.isEmpty = true
  · rw [if_pos hempty] at hts
    obtain rfl := List.map_eq_nil_iff.mp hts
    rw [List.isEmpty_iff.mp hempty]
    exact ⟨[], rfl, fun _ _ => reads_procedureParams.mpr (.inl ⟨stops_cons.mpr rfl, rfl, rfl⟩)⟩
  · rw [if_neg hempty] at hts
    obtain ⟨opening, us, closing, rfl, hus⟩ := kinds_parens hts
    obtain ⟨groups', hbare, hread⟩ := readBack_params hne hus
    refine ⟨groups', hbare, fun semi rest => ?_⟩
    rw [List.cons_append, List.append_assoc]
    exact reads_procedureParams.mpr (.inr ⟨opening, _, rfl, hread closing _⟩)

/-- The body of a routine, with the semicolons around it. -/
theorem readBack_body {body : Block} (hcanon : body.canonical = true)
    (hts : ts.map Token.kind = .punct .semicolon :: (body.print ++ [.punct .semicolon])) :
    ∃ semi us stop body', ts = ⟨.punct .semicolon, semi⟩ :: (us ++ [⟨.punct .semicolon, stop⟩]) ∧
      body'.bare = body.bare ∧ ∀ rest, Reads (block (us ++ rest)) body' rest := by
  obtain ⟨semi, vs, rfl, hvs⟩ := kinds_cons hts
  obtain ⟨us, ws, rfl, hus, hws⟩ := kinds_append hvs
  obtain ⟨stop, rfl⟩ := kinds_one hws
  obtain ⟨body', hbare, hread⟩ := body.readBack hcanon hus
  exact ⟨semi, us, stop, body', rfl, hbare, hread⟩

/-- A routine in front of others. -/
theorem Routine.readBack {r : Routine} (hne : ∀ p ∈ r.params, p.names ≠ [])
    (hcanon : r.body.canonical = true) (hts : ts.map Token.kind = r.print) :
    ∃ r' : Routine, r'.bare = r.bare ∧ ∀ rest rs behind, Reads (routines rest) rs behind →
      Reads (routines (ts ++ rest)) (r' :: rs) behind := by
  rw [Routine.print] at hts
  split at hts
  · next hresult =>
      obtain ⟨start, us, rfl, hus⟩ := kinds_cons hts
      obtain ⟨place, vs, rfl, hvs⟩ := kinds_cons hus
      obtain ⟨ws, zs, rfl, hws, hzs⟩ := kinds_append hvs
      obtain ⟨semi, bs, stop, body', rfl, hbareB, hreadB⟩ := readBack_body hcanon hzs
      obtain ⟨groups', hbareG, hreadG⟩ := readBack_procedureParams hne hws
      refine ⟨⟨⟨r.name.name, place⟩, groups', none, body', start.merge stop⟩, ?_,
        fun rest rs behind hrest => ?_⟩
      · rw [Routine.bare, Routine.bare, hbareG, hbareB, hresult]
        rfl
      · have hproc : Reads (procedure start (⟨.ident r.name.name, place⟩ :: (ws ++
            ⟨.punct .semicolon, semi⟩ :: (bs ++ ⟨.punct .semicolon, stop⟩ :: rest))))
            ⟨⟨r.name.name, place⟩, groups', none, body', start.merge stop⟩ rest :=
          reads_procedure.mpr ⟨⟨r.name.name, place⟩, _, groups', semi, _, body', stop, rfl,
            hreadG _ _, hreadB _, rfl⟩
        refine reads_routines.mpr (.inr (.inl ⟨start, _, _, rest, rs, ?_, hproc, hrest, rfl⟩))
        simp
  · next ty hresult =>
      obtain ⟨start, us, rfl, hus⟩ := kinds_cons hts
      obtain ⟨place, vs, rfl, hvs⟩ := kinds_cons hus
      obtain ⟨ws, zs, rfl, hws, hzs⟩ := kinds_append hvs
      obtain ⟨colon, as, rfl, has⟩ := kinds_cons hzs
      obtain ⟨tyPlace, cs, rfl, hcs⟩ := kinds_cons has
      obtain ⟨semi, bs, stop, body', rfl, hbareB, hreadB⟩ := readBack_body hcanon hcs
      obtain ⟨opening, gs, closing, rfl, hgs⟩ := kinds_parens hws
      obtain ⟨groups', hbareG, hreadG⟩ := readBack_params hne hgs
      refine ⟨⟨⟨r.name.name, place⟩, groups', some ty, body', start.merge stop⟩, ?_,
        fun rest rs behind hrest => ?_⟩
      · rw [Routine.bare, Routine.bare, hbareG, hbareB, hresult]
        rfl
      · have hfunc : Reads (function start (⟨.ident r.name.name, place⟩ :: ⟨.punct .lparen, opening⟩ ::
            (gs ++ ⟨.punct .rparen, closing⟩ :: ⟨.punct .colon, colon⟩ ::
              ⟨.keyword (tyWord ty), tyPlace⟩ :: ⟨.punct .semicolon, semi⟩ ::
                (bs ++ ⟨.punct .semicolon, stop⟩ :: rest))))
            ⟨⟨r.name.name, place⟩, groups', some ty, body', start.merge stop⟩ rest :=
          reads_function.mpr ⟨⟨r.name.name, place⟩, opening, _, groups', colon, ty, tyPlace, semi, _,
            body', stop, rfl, hreadG closing _, hreadB _, rfl⟩
        refine reads_routines.mpr (.inr (.inr ⟨start, _, _, rest, rs, ?_, hfunc, hrest, rfl⟩))
        simp

/-- Printed routines are read back in order, if no routine follows them. -/
theorem readBack_routines {rs : List Routine}
    (h : ∀ r ∈ rs, (∀ p ∈ r.params, p.names ≠ []) ∧ r.body.canonical = true)
    (hts : ts.map Token.kind = rs.flatMap Routine.print) :
    ∃ rs' : List Routine, rs'.map Routine.bare = rs.map Routine.bare ∧
      ∀ rest, Stops startsRoutine rest → Reads (routines (ts ++ rest)) rs' rest := by
  induction rs generalizing ts with
  | nil =>
      obtain rfl := List.map_eq_nil_iff.mp hts
      refine ⟨[], rfl, fun rest hstop => reads_routines.mpr (.inl ⟨?_, ?_, rfl, rfl⟩)⟩
      · exact hstop.mono (fun k hk => by simp only [startsRoutine, hk, Bool.true_or])
      · exact hstop.mono (fun k hk => by simp only [startsRoutine, hk, Bool.or_true])
  | cons r rs ih =>
      obtain ⟨us, vs, rfl, hus, hvs⟩ := kinds_append hts
      obtain ⟨hne, hcanon⟩ := h r List.mem_cons_self
      obtain ⟨r', hbare, hread⟩ := Routine.readBack hne hcanon hus
      obtain ⟨rs', hbares, hreads⟩ := ih (fun x hx => h x (List.mem_cons_of_mem _ hx)) hvs
      refine ⟨r' :: rs', by rw [List.map_cons, List.map_cons, hbare, hbares], fun rest hstop => ?_⟩
      rw [List.append_assoc]
      exact hread _ rs' rest (hreads rest hstop)

theorem exists_routines_of_all {ds : List Decl} (h : ds.all Decl.isRoutine = true) :
    ∃ rs : List Routine, ds = rs.map Decl.routine := by
  induction ds with
  | nil => exact ⟨[], rfl⟩
  | cons d ds ih =>
      rw [List.all_cons, Bool.and_eq_true] at h
      obtain ⟨rs, rfl⟩ := ih h.2
      cases d with
      | vars d => cases h.1
      | routine r => exact ⟨r :: rs, rfl⟩

/-- Variables that come first are followed by routines only. -/
theorem exists_split_of_varsFirst {ds : List Decl} (h : varsFirst ds = true) :
    ∃ (vars : List VarDecl) (rs : List Routine), ds = vars.map Decl.vars ++ rs.map Decl.routine := by
  induction ds with
  | nil => exact ⟨[], [], rfl⟩
  | cons d ds ih =>
      cases d with
      | vars d =>
          obtain ⟨vars, rs, rfl⟩ := ih h
          exact ⟨d :: vars, rs, rfl⟩
      | routine r =>
          obtain ⟨rs, rfl⟩ := exists_routines_of_all h
          exact ⟨[], r :: rs, rfl⟩

theorem bare_declarations (vars : List VarDecl) (rs : List Routine) :
    (vars.map Decl.vars ++ rs.map Decl.routine).map Decl.bare =
      (vars.map VarDecl.bare).map Decl.vars ++ (rs.map Routine.bare).map Decl.routine := by
  simp [Decl.bare, Function.comp_def]

/-- What a block prints as starts with a `begin`. -/
theorem begin_of_print {b : Block} (h : ts.map Token.kind = b.print) :
    ∃ place us, ts = ⟨.keyword .begin, place⟩ :: us := by
  obtain ⟨ss, span⟩ := b
  rw [Block.print] at h
  obtain ⟨place, us, rfl, _⟩ := kinds_cons h
  exact ⟨place, us, rfl⟩

/-- Behind the variables stands the first routine or the main block, which both do not go on with
    variables. -/
theorem stops_of_print {rs : List Routine} {main : Block} {vs ws : List Token}
    (hvs : vs.map Token.kind = rs.flatMap Routine.print) (hws : ws.map Token.kind = main.print)
    (rest : List Token) : Stops (fun k => isName k || is (.keyword .var) k) (vs ++ (ws ++ rest)) := by
  cases rs with
  | nil =>
      obtain rfl := List.map_eq_nil_iff.mp hvs
      obtain ⟨place, us, rfl⟩ := begin_of_print hws
      exact stops_cons.mpr rfl
  | cons r rs =>
      obtain ⟨kind, kinds, hstarts, hends⟩ := r.print_starts (rs.flatMap Routine.print)
      obtain ⟨place, us, rfl, _⟩ := kinds_cons (hvs.trans hstarts)
      refine stops_cons.mpr ?_
      unfold endsVars at hends
      split at hends
      all_goals first | rfl | cases hends

/-- **A canonical program is read back**, whatever stands behind its dot. -/
theorem Program.readBack {tree : Program} (hcanon : tree.canonical = true)
    (hts : ts.map Token.kind = tree.print) :
    ∃ tree' : Program, tree'.bare = tree.bare ∧ ∀ rest, Reads (program (ts ++ rest)) tree' rest := by
  obtain ⟨declarations, main, span⟩ := tree
  rw [Program.canonical, Bool.and_eq_true, Bool.and_eq_true] at hcanon
  obtain ⟨⟨hfirst, hdecls⟩, hmain⟩ := hcanon
  obtain ⟨vars, rs, rfl⟩ := exists_split_of_varsFirst hfirst
  have hvars : ∀ d ∈ vars, d.names ≠ [] := by
    intro d hd
    have hd' := List.all_eq_true.mp hdecls (.vars d) (by simp [hd])
    simpa [Decl.canonical] using hd'
  have hrs : ∀ r ∈ rs, (∀ p ∈ r.params, p.names ≠ []) ∧ r.body.canonical = true := by
    intro r hr
    have hr' := List.all_eq_true.mp hdecls (.routine r) (by simp [hr])
    simpa [Decl.canonical] using hr'
  -- the tokens of the variables, of the routines and of the main block
  rw [Program.print, List.flatMap_append, List.flatMap_map, List.flatMap_map, List.append_assoc] at hts
  obtain ⟨us, zs, rfl, hus, hzs⟩ := kinds_append hts
  obtain ⟨vs, ys, rfl, hvs, hys⟩ := kinds_append hzs
  obtain ⟨ws, xs, rfl, hws, hxs⟩ := kinds_append hys
  obtain ⟨stop, rfl⟩ := kinds_one hxs
  obtain ⟨vars', hbareV, hreadV⟩ := readBack_vars hvars hus
  obtain ⟨rs', hbareR, hreadR⟩ := readBack_routines hrs hvs
  obtain ⟨main', hbareM, hreadM⟩ := main.readBack hmain hws
  have hne : us ++ (vs ++ ws) ≠ [] := by
    obtain ⟨place, more, rfl⟩ := begin_of_print hws
    simp
  refine ⟨⟨vars'.map .vars ++ rs'.map .routine, main', (startOf (us ++ (vs ++ ws))).merge stop⟩, ?_,
    fun rest => ?_⟩
  · rw [Program.bare, Program.bare, bare_declarations, bare_declarations, hbareV, hbareR, hbareM]
  · have hassoc : us ++ (vs ++ (ws ++ [⟨.punct .dot, stop⟩])) ++ rest =
        us ++ (vs ++ (ws ++ ⟨.punct .dot, stop⟩ :: rest)) := by simp
    have hstart : startOf (us ++ (vs ++ (ws ++ [⟨.punct .dot, stop⟩])) ++ rest) =
        startOf (us ++ (vs ++ ws)) := by
      have hfront : startOf (us ++ (vs ++ ws) ++ ⟨.punct .dot, stop⟩ :: rest) =
          startOf (us ++ (vs ++ ws)) := startOf_append hne
      rw [← hfront]
      simp
    have hroutines : Stops startsRoutine (ws ++ ⟨.punct .dot, stop⟩ :: rest) := by
      obtain ⟨place, more, rfl⟩ := begin_of_print hws
      exact stops_cons.mpr rfl
    refine reads_program.mpr ⟨vars', _, rs', _, main', stop, ?_, hreadR _ hroutines, hreadM _, ?_⟩
    · rw [hassoc]
      exact hreadV _ (stops_of_print hvs hws _)
    · rw [hstart]

end Declarations

/-! ## The correspondence -/

/-- Without regard to places. -/
theorem covering_true : Covering (fun _ _ => True) :=
  ⟨fun _ _ => trivial, fun _ _ _ => trivial⟩

/-- **Trees and tokens correspond.**
    Every tree that is read is canonical.
    Every canonical tree is read back from what it prints as, but for places: whatever the places of the
    tokens are, and whether or not the end is written behind them. If it is not written, the tokens must
    have a stream; they have none exactly if the last of them leaves no column for the end.
    What was taken for a tree has, as normal form, what the tree prints as. -/
theorem trees_correspond_to_tokens :
    (∀ (ts : List Token) (tree : Program), Program.ofTokens? ts = some (.ok tree) →
      tree.canonical = true) ∧
    (∀ (tree : Program) (ts : List Token), tree.canonical = true → ts.map Token.kind = tree.print →
      ∃ tree' : Program, tree'.bare = tree.bare ∧
        (∀ finish, Program.ofTokens? (ts ++ [⟨.eof, finish⟩]) = some (.ok tree')) ∧
        ((Stream.ofTokens? ts).isSome → Program.ofTokens? ts = some (.ok tree'))) ∧
    (∀ ts : List Token, Stream.ofTokens? ts = none ↔ EndsInLastColumn ts) ∧
    (∀ (ts : List Token) (tree : Program), Program.ofTokens? ts = some (.ok tree) →
      ∃ (s : Stream) (pre : List Token), Stream.ofTokens? ts = some s ∧
        s.tokens = pre ++ s.next.2.tokens ∧ normal (pre.map Token.kind) = tree.print) := by
  have hwritten : ∀ (ts : List Token) (tree : Program), Program.ofTokens? ts = some (.ok tree) →
      ∃ (s : Stream) (pre : List Token), Stream.ofTokens? ts = some s ∧
        s.tokens = pre ++ s.next.2.tokens ∧ tree.Written (fun _ _ => True) pre := by
    intro ts tree h
    obtain ⟨s, hs, hnext⟩ := Option.map_eq_some_iff.mp h
    obtain ⟨pre, hpre, hwritten⟩ := written_of_next covering_true hnext
    exact ⟨s, pre, hs, hpre, hwritten⟩
  refine ⟨?_, ?_, fun _ => Stream.ofTokens?_eq_none, ?_⟩
  · intro ts tree h
    obtain ⟨s, pre, _, _, hpre⟩ := hwritten ts tree h
    exact hpre.canonical
  · intro tree ts hcanon hts
    obtain ⟨tree', hbare, hread⟩ := Program.readBack hcanon hts
    have hnext : ∀ finish, (Stream.mk ts finish).next.1 = .ok tree' := by
      intro finish
      have hwhole := hread []
      rw [List.append_nil] at hwhole
      exact congrArg Prod.fst (next_eq_ok (s := ⟨ts, finish⟩) |>.mpr hwhole)
    refine ⟨tree', hbare, fun finish => ?_, fun hsome => ?_⟩
    · rw [ofTokens?_closed, hnext]
    · obtain ⟨s, hs⟩ := Option.isSome_iff_exists.mp hsome
      have htokens : s.tokens = ts := by
        rcases Stream.ofTokens?_cases hs with hlist | htokens
        · -- the last token is the dot
          rw [← hlist, Program.print, Stream.toList, List.map_append, ← List.append_assoc] at hts
          obtain ⟨_, hlast⟩ := List.append_inj' hts rfl
          cases hlast
        · exact htokens
      rw [Program.ofTokens?, hs, Option.map_some, ← hnext s.finish, ← htokens]
  · intro ts tree h
    obtain ⟨s, pre, hs, hpre, hwritten⟩ := hwritten ts tree h
    exact ⟨s, pre, hs, hpre, hwritten.normal_eq⟩

/-- The tree of `begin x := 1 - 2 - 3 end.`, which groups to the left. -/
def twoDifferences : Program :=
  ⟨[], ⟨[.assign ⟨"x", {}⟩ (.binary .sub (.binary .sub (.int 1 {}) (.int 2 {}) {}) (.int 3 {}) {}) {}],
    {}⟩, {}⟩

/-- A chain of differences is read as it was grouped, and its tokens are the ones it prints as. -/
theorem trees_correspond_to_tokens_twoDifferences :
    ∃ (tree' : Program) (s : Stream) (pre : List Token), tree'.bare = twoDifferences ∧
      tree'.canonical = true ∧
      Program.ofTokens? (twoDifferences.print.map (Token.mk · {})) = some (.ok tree') ∧
      Stream.ofTokens? (twoDifferences.print.map (Token.mk · {})) = some s ∧
      s.tokens = pre ++ s.next.2.tokens ∧ normal (pre.map Token.kind) = tree'.print := by
  obtain ⟨hcanonical, hback, _, hnormal⟩ := trees_correspond_to_tokens
  have hkinds : (twoDifferences.print.map (Token.mk · {})).map Token.kind = twoDifferences.print := by
    decide
  obtain ⟨tree', hbare, _, hread⟩ := hback twoDifferences _ (by decide) hkinds
  have hparse := hread (by decide)
  obtain ⟨s, pre, hs, htaken, hprint⟩ := hnormal _ tree' hparse
  exact ⟨tree', s, pre, hbare, hcanonical _ _ hparse, hparse, hs, htaken, hprint⟩

end TinyPascal
