import TinyPascal.Proofs.Grammar.Remainder
import TinyPascal.Proofs.Grammar.Written
import TinyPascal.Proofs.Token.Tiling

/-!
# `Proofs.Tree.Spans` — the place of a node is that of its tokens

The parsers merge places as they go: that of a first token with that of a last one, or those of two
operands. On tokens that stand one behind the other, as those of a text do, every merge is the stretch
from the first token of a node to its last one. So parts of a node lie inside it, one behind the other.

## Contents
- **Tokens in order.** `InOrder`; `inOrder_of_lex`: the tokens of a text are.
- **Stretches.** `Covers span ts`; `covering_covers`: merged places cover.
- **Outlines.** `Outline`, the places of a tree. `Laid`: an outline lies over tokens, its parts over
  stretches of them. `Laid.placed`: then all parts lie inside, in order.
- **Trees.** `Program.outline`, `Program.Written.laid`.
- **Texts.** `parse_spans_cover`.
-/

namespace TinyPascal

open TinyPascal.Parser TinyPascal.Grammar

/-! ## Tokens in order -/

/-- The tokens stand one behind the other. -/
def InOrder (ts : List Token) : Prop :=
  (∀ t ∈ ts, t.span.start ≤ t.span.stop) ∧ ts.Pairwise (fun a b => a.span.stop ≤ b.span.start)

namespace InOrder

variable {ts us : List Token}

theorem sublist (h : InOrder ts) (hsub : us.Sublist ts) : InOrder us := by
  refine ⟨fun t ht => h.1 t (hsub.subset ht), ?_⟩
  exact h.2.sublist hsub

theorem left (h : InOrder (ts ++ us)) : InOrder ts :=
  h.sublist (List.sublist_append_left ts us)

theorem right (h : InOrder (ts ++ us)) : InOrder us :=
  h.sublist (List.sublist_append_right ts us)

/-- What stands in front stops before what stands behind starts. -/
theorem before (h : InOrder (ts ++ us)) {a b : Token} (ha : a ∈ ts) (hb : b ∈ us) :
    a.span.stop ≤ b.span.start :=
  (List.pairwise_append.mp h.2).2.2 a ha b hb

end InOrder

/-- The tokens of a text are those that its scanner finds. -/
theorem stream_of_lex {source : String} {stream : Stream} (h : lex source = .ok stream) :
    stream = (Scanner.ofSource source).stream := by
  have hsource := Except.mapError_eq_ok.mp h
  unfold Stream.ofSource at hsource
  dsimp only at hsource
  split at hsource
  · cases hsource
  · cases hsource
    rfl

/-- **The tokens of a text stand one behind the other.** -/
theorem inOrder_of_lex {source : String} {stream : Stream} (h : lex source = .ok stream) :
    InOrder stream.tokens := by
  have htiled := tiled_split [] source.toList
  have hsub : (stream.tokens.map Token.span).Sublist
      (((Lexeme.locate (Pos.counted []) (Lexeme.split source.toList)).filter Lexeme.solid).map
        Prod.snd) := by
    rw [stream_of_lex h]
    exact sublist_token_spans _
  constructor
  · intro t ht
    obtain ⟨u, v, w, _, hv, hspan⟩ :=
      htiled.exists_stretch (hsub.subset (List.mem_map_of_mem ht))
    rw [hspan]
    exact Nat.le_of_lt (Span.counted_nonempty hv)
  · exact List.pairwise_map.mp (htiled.pairwise.sublist hsub)

/-! ## Stretches -/

/-- The span runs from the start of the first token to the end of the last one, and has the line and the
    column of the first one. -/
def Covers (span : Span) (ts : List Token) : Prop :=
  ∃ first last : Token, ts.head? = some first ∧ ts.getLast? = some last ∧
    span = ⟨first.span.start, last.span.stop, first.span.line, first.span.column⟩

/-- **Merged places cover**, on tokens that stand one behind the other. -/
theorem covering_covers : Covering (fun span ts => InOrder ts → Covers span ts) := by
  refine ⟨fun kind place _ => ⟨_, _, rfl, rfl, rfl⟩, ?_⟩
  intro s s' us vs ws h h' hin
  obtain ⟨a, b, ha, hb, rfl⟩ := h hin.left
  obtain ⟨a', b', ha', hb', rfl⟩ := h' hin.right.right
  have hfirst : a.span.stop ≤ a'.span.start :=
    hin.before (List.mem_of_mem_head? ha) (List.mem_append_right _ (List.mem_of_mem_head? ha'))
  have hlast : b.span.stop ≤ b'.span.start :=
    hin.before (List.mem_of_mem_getLast? hb) (List.mem_append_right _ (List.mem_of_mem_getLast? hb'))
  have hleft := hin.left.1 a (List.mem_of_mem_head? ha)
  have hright := hin.right.right.1 b' (List.mem_of_mem_getLast? hb')
  refine ⟨a, b', by simp [ha], by simp [hb'], ?_⟩
  -- the left place starts first, the right one stops last
  have hmin : min a.span.start a'.span.start = a.span.start := by omega
  have hmax : max b.span.stop b'.span.stop = b'.span.stop := by omega
  have hnot : ¬ a'.span.start < a.span.start := by omega
  simp only [Span.merge, hmin, hmax, if_neg hnot]

namespace Covers

variable {span part : Span} {ts us : List Token}

/-- A stretch of tokens lies inside the whole. -/
theorem inside (h : Covers span ts) (hpart : Covers part us) (hin : us <:+: ts) (hts : InOrder ts) :
    span.start ≤ part.start ∧ part.stop ≤ span.stop := by
  obtain ⟨first, last, hfirst, hlast, rfl⟩ := h
  obtain ⟨first', last', hfirst', hlast', rfl⟩ := hpart
  have hmem : first' ∈ ts := hin.subset (List.mem_of_mem_head? hfirst')
  have hmem' : last' ∈ ts := hin.subset (List.mem_of_mem_getLast? hlast')
  constructor
  · -- nothing starts before the first token
    obtain ⟨more, rfl⟩ := List.head?_eq_some_iff.mp hfirst
    rcases List.mem_cons.mp hmem with rfl | hmem
    · exact Nat.le_refl _
    · have hle := hts.1 first List.mem_cons_self
      have hbefore := List.rel_of_pairwise_cons hts.2 hmem
      exact Nat.le_trans hle hbefore
  · -- and nothing stops behind the last one
    obtain ⟨front, rfl⟩ := List.getLast?_eq_some_iff.mp hlast
    rcases List.mem_append.mp hmem' with hmem' | hmem'
    · have hle := hts.1 last (List.mem_append_right _ (List.mem_singleton_self _))
      have hbefore := hts.before hmem' (List.mem_singleton_self last)
      exact Nat.le_trans hbefore hle
    · obtain rfl := List.mem_singleton.mp hmem'
      exact Nat.le_refl _

/-- A stretch stops before one of the tokens behind it starts. -/
theorem before {vs : List Token} (h : Covers span ts) (hpart : Covers part us) (hin : InOrder (ts ++ vs))
    (hus : us <:+: vs) : span.stop ≤ part.start := by
  obtain ⟨first, last, hfirst, hlast, rfl⟩ := h
  obtain ⟨first', last', hfirst', hlast', rfl⟩ := hpart
  exact hin.before (List.mem_of_mem_getLast? hlast) (hus.subset (List.mem_of_mem_head? hfirst'))

end Covers

/-! ## Outlines -/

/-- The place of a node, and the outlines of its parts from left to right. -/
inductive Outline where
  | node (span : Span) (parts : List Outline)

def Outline.span : Outline → Span
  | .node span _ => span

/-- All parts lie inside, one behind the other, and so do the parts of these. -/
inductive Outline.Placed : Outline → Prop where
  | mk {span parts} : (∀ o ∈ parts, span.start ≤ o.span.start ∧ o.span.stop ≤ span.stop) →
      parts.Pairwise (fun a b => a.span.stop ≤ b.span.start) → (∀ o ∈ parts, Outline.Placed o) →
      Outline.Placed (.node span parts)

/-- The outlines lie over stretches of the tokens, from left to right. -/
inductive Laid : List Outline → List Token → Prop where
  | none {ts} : Laid [] ts
  | next {span parts os ts us vs} : Covers span us → Laid parts us → Laid os vs →
      Laid (.node span parts :: os) (ts ++ (us ++ vs))

namespace Laid

variable {os os' : List Outline} {ts us : List Token} {span : Span} {t : Token}

theorem node (hspan : Covers span ts) (h : Laid os ts) : Laid [.node span os] ts := by
  have hlaid : Laid [.node span os] ([] ++ (ts ++ [])) := .next hspan h .none
  rwa [List.nil_append, List.append_nil] at hlaid

/-- More tokens in front. -/
theorem behind (h : Laid os us) : Laid os (ts ++ us) := by
  cases h with
  | none => exact .none
  | next hspan hparts hos =>
      rw [← List.append_assoc]
      exact .next hspan hparts hos

theorem skip (h : Laid os ts) : Laid os (t :: ts) := by
  have hlaid : Laid os ([t] ++ ts) := h.behind
  exact hlaid

/-- Outlines on two stretches in a row lie on the joined stretch. -/
theorem append (h : Laid os ts) (h' : Laid os' us) : Laid (os ++ os') (ts ++ us) := by
  induction h with
  | none => exact h'.behind
  | next hspan hparts _ _ ih =>
      rw [List.append_assoc, List.append_assoc]
      exact .next hspan hparts ih

/-- More tokens behind. -/
theorem front (h : Laid os ts) : Laid os (ts ++ us) := by
  have hlaid : Laid (os ++ []) (ts ++ us) := h.append .none
  rwa [List.append_nil] at hlaid

/-- What lies over tokens in order lies in order itself. -/
theorem placed (h : Laid os ts) (hin : InOrder ts) :
    (∀ o ∈ os, o.Placed ∧ ∃ us, us <:+: ts ∧ Covers o.span us) ∧
      os.Pairwise (fun a b => a.span.stop ≤ b.span.start) := by
  induction h with
  | none =>
      refine ⟨fun o ho => ?_, .nil⟩
      cases ho
  | @next span parts os ts us vs hspan _ _ ihparts ihos =>
      obtain ⟨hparts, hpartsOrder⟩ := ihparts hin.right.left
      obtain ⟨hos, hosOrder⟩ := ihos hin.right.right
      have hus : us <:+: ts ++ (us ++ vs) := ⟨ts, vs, by simp⟩
      have hvs : vs <:+: ts ++ (us ++ vs) := ⟨ts ++ us, [], by simp⟩
      refine ⟨List.forall_mem_cons.mpr ⟨⟨.mk ?_ hpartsOrder ?_, us, hus, hspan⟩, ?_⟩,
        List.pairwise_cons.mpr ⟨?_, hosOrder⟩⟩
      · intro o ho
        obtain ⟨_, ws, hws, hcover⟩ := hparts o ho
        exact hspan.inside hcover hws hin.right.left
      · intro o ho
        exact (hparts o ho).1
      · intro o ho
        obtain ⟨hplaced, ws, hws, hcover⟩ := hos o ho
        exact ⟨hplaced, ws, hws.trans hvs, hcover⟩
      · intro o ho
        obtain ⟨_, ws, hws, hcover⟩ := hos o ho
        exact hspan.before hcover hin.right hws

end Laid

/-! ## Trees -/

def Ident.outline (name : Ident) : Outline :=
  .node name.span []

mutual

def Expr.outline : Expr → Outline
  | .int _ span | .bool _ span | .var _ span => .node span []
  | .paren inner span => .node span [inner.outline]
  | .not operand span => .node span [operand.outline]
  | .binary _ left right span => .node span [left.outline, right.outline]
  | .call callee args span => .node span (callee.outline :: outlineArgs args)

def outlineArgs : List Expr → List Outline
  | [] => []
  | e :: es => e.outline :: outlineArgs es

end

mutual

def Stmt.outline : Stmt → Outline
  | .assign target value span => .node span [target.outline, value.outline]
  | .call callee args span => .node span (callee.outline :: outlineArgs args)
  | .return none span => .node span []
  | .return (some value) span => .node span [value.outline]
  | .ifThen cond yes span => .node span [cond.outline, yes.outline]
  | .ifElse cond yes no span => .node span [cond.outline, yes.outline, no.outline]
  | .while cond body span => .node span [cond.outline, body.outline]
  | .break span | .continue span => .node span []
  | .write args span => .node span (outlineArgs args)

def Block.outline : Block → Outline
  | ⟨statements, span⟩ => .node span (outlineStmts statements)

def outlineStmts : List Stmt → List Outline
  | [] => []
  | s :: more => s.outline :: outlineStmts more

end

def VarDecl.outline (d : VarDecl) : Outline :=
  .node d.span (d.names.map Ident.outline)

def Param.outline (p : Param) : Outline :=
  .node p.span (p.names.map Ident.outline)

def Routine.outline (r : Routine) : Outline :=
  .node r.span (r.name.outline :: (r.params.map Param.outline ++ [r.body.outline]))

def Decl.outline : Decl → Outline
  | .vars d => d.outline
  | .routine r => r.outline

/-- The places of all nodes of a program: declarations, groups of parameters, names, blocks, statements
    and expressions. -/
def Program.outline (tree : Program) : Outline :=
  .node tree.span (tree.declarations.map Decl.outline ++ [tree.main.outline])

section Laid

variable {ts : List Token}

theorem Ident.Written.laid {name : Ident} (h : name.Written Covers ts) : Laid [name.outline] ts := by
  obtain ⟨t, rfl, _, hspan⟩ := h
  exact .node hspan .none

mutual

/-- The outline of an expression lies on the tokens it was read from. -/
theorem Expr.Written.laid : ∀ {tier : Tier} {e : Expr} {ts : List Token}, e.Written Covers tier ts →
    Laid [e.outline] ts
  | _, _, _, .int h => by
      rw [Expr.outline]
      exact .node h .none
  | _, _, _, .bool h => by
      rw [Expr.outline]
      exact .node h .none
  | _, _, _, .var h => by
      rw [Expr.outline]
      exact .node h .none
  | _, _, _, .paren hinner h => by
      rw [Expr.outline]
      exact .node h hinner.laid.front.skip
  | _, _, _, .not hoperand h => by
      rw [Expr.outline]
      exact .node h hoperand.laid.skip
  | _, _, _, .binary _ hl hr h => by
      rw [Expr.outline]
      exact .node h (hl.laid.append hr.laid.skip)
  | _, _, _, .call hcallee hargs h => by
      rw [Expr.outline]
      exact .node h (hcallee.laid.append hargs.laid.front.skip)

theorem ExprsWritten.laid : ∀ {es : List Expr} {ts : List Token}, ExprsWritten Covers es ts →
    Laid (outlineArgs es) ts
  | _, _, .none => .none
  | _, _, .one he => he.laid
  | _, _, .more he hes => he.laid.append hes.laid.skip

end

mutual

/-- The outline of a statement lies on the tokens it was read from. -/
theorem Stmt.Written.laid : ∀ {s : Stmt} {ts : List Token}, s.Written Covers ts →
    Laid [s.outline] ts
  | _, _, .assign hx he h => by
      rw [Stmt.outline]
      exact .node h (hx.laid.append he.laid.skip)
  | _, _, .call hx hes h => by
      rw [Stmt.outline]
      exact .node h (hx.laid.append hes.laid.front.skip)
  | _, _, .returnNone h => by
      rw [Stmt.outline]
      exact .node h .none
  | _, _, .returnSome he h => by
      rw [Stmt.outline]
      exact .node h he.laid.skip
  | _, _, .ifThen hc hy h => by
      rw [Stmt.outline]
      exact .node h (hc.laid.append hy.laid.skip).skip
  | _, _, .ifElse hc hy hn h => by
      rw [Stmt.outline]
      exact .node h (hc.laid.append (hy.laid.append hn.laid.skip).skip).skip
  | _, _, .while hc hb h => by
      rw [Stmt.outline]
      exact .node h (hc.laid.append hb.laid.skip).skip
  | _, _, .break h => by
      rw [Stmt.outline]
      exact .node h .none
  | _, _, .continue h => by
      rw [Stmt.outline]
      exact .node h .none
  | _, _, .write hes h => by
      rw [Stmt.outline]
      exact .node h hes.laid.front.skip.skip

/-- The outline of a block lies on its tokens, from `begin` to `end`. -/
theorem Block.Written.laid : ∀ {b : Block} {ts : List Token}, b.Written Covers ts →
    Laid [b.outline] ts
  | _, _, .mk hss h => by
      rw [Block.outline]
      exact .node h hss.laid.skip

theorem StmtsWritten.laid : ∀ {ss : List Stmt} {ts : List Token}, StmtsWritten Covers ss ts →
    Laid (outlineStmts ss) ts
  | _, _, .done => .none
  | _, _, .skip hss => hss.laid.skip
  | _, _, .next hs hss => hs.laid.append hss.laid.skip
  | _, _, .last hs => hs.laid.front

end

/-- The outlines of a list lie on its tokens if each item's outline lies on the tokens of the item. -/
theorem Listed.laid {α : Type} {mark : Punct} {W : α → List Token → Prop} {outline : α → Outline}
    {as : List α} (h : Listed mark W as ts) (hW : ∀ a us, W a us → Laid [outline a] us) :
    Laid (as.map outline) ts := by
  induction h with
  | none => exact .none
  | one ha => exact hW _ _ ha
  | more ha _ ih => exact (hW _ _ ha).append ih.skip

/-- The outline of a line of variables lies on its tokens. -/
theorem VarDecl.Written.laid {d : VarDecl} (h : d.Written Covers ts) : Laid [d.outline] ts := by
  cases h with
  | mk _ hnames h => exact .node h (hnames.laid (fun _ _ => Ident.Written.laid)).front

theorem VarsWritten.laid {opened : Bool} {ds : List VarDecl} (h : VarsWritten Covers opened ds ts) :
    Laid (ds.map VarDecl.outline) ts := by
  induction h with
  | none => exact .none
  | opening hd _ ih => exact (hd.laid.append ih).skip
  | line hd _ ih => exact hd.laid.append ih

/-- The outline of a group of parameters lies on its tokens. -/
theorem Param.Written.laid {p : Param} (h : p.Written Covers ts) : Laid [p.outline] ts := by
  cases h with
  | mk _ hnames h => exact .node h (hnames.laid (fun _ _ => Ident.Written.laid)).front

theorem ParamsWritten.laid {groups : List Param} (h : ParamsWritten Covers groups ts) :
    Laid (groups.map Param.outline) ts := by
  cases h with
  | mk hgroups => exact (hgroups.laid (fun _ _ => Param.Written.laid)).front.skip

/-- The outline of a routine lies on its tokens, from its keyword to the `;` behind its block. -/
theorem Routine.Written.laid {r : Routine} (h : r.Written Covers ts) : Laid [r.outline] ts := by
  cases h with
  | bare hx hb h => exact .node h (hx.laid.append hb.laid.front.skip).skip
  | procedure hx hps hb h =>
      exact .node h (hx.laid.append (hps.laid.append hb.laid.front.skip)).skip
  | function hx hps hb h =>
      exact .node h (hx.laid.append (hps.laid.append hb.laid.front.skip.skip.skip)).skip

theorem RoutinesWritten.laid {rs : List Routine} (h : RoutinesWritten Covers rs ts) :
    Laid (rs.map Routine.outline) ts := by
  induction h with
  | none => exact .none
  | more hr _ ih => exact hr.laid.append ih

/-- The nodes of a program lie over its tokens. -/
theorem Program.Written.laid {tree : Program} (h : tree.Written Covers ts) : Laid [tree.outline] ts := by
  cases h with
  | @mk vars routines main _ _ _ _ _ hvars hroutines hmain h =>
      have hdecls : (vars.map Decl.vars ++ routines.map Decl.routine).map Decl.outline =
          vars.map VarDecl.outline ++ routines.map Routine.outline := by
        simp [Decl.outline, Function.comp_def]
      rw [Program.outline, hdecls, List.append_assoc]
      exact .node h (hvars.laid.append (hroutines.laid.append hmain.laid.front))

end Laid

/-! ## Texts -/

/-- **The place of every node is that of its tokens.** A text that is accepted has the tree of the tokens
    up to its dot, with each node over its own stretch of them: its span runs from the start of the first
    token to the end of the last one, and has the line and the column of the first one. So parts of a
    node lie inside it, from left to right and without overlap. -/
theorem parse_spans_cover (source : String) (tree : Program) (h : parse source = .ok tree) :
    ∃ (stream : Stream) (pre : List Token), lex source = .ok stream ∧
      stream.tokens = pre ++ stream.next.2.tokens ∧ tree.Written Covers pre ∧ tree.outline.Placed := by
  obtain ⟨stream, hlex, hnext⟩ := parse_eq_ok.mp h
  obtain ⟨pre, htokens, hwritten⟩ := written_of_next covering_covers hnext
  have hin : InOrder pre := by
    have hall := inOrder_of_lex hlex
    rw [htokens] at hall
    exact hall.left
  have hcovers : tree.Written Covers pre := by
    refine hwritten.imp (fun span us hus hspan => ?_)
    exact hspan (hin.sublist hus.sublist)
  obtain ⟨hplaced, _⟩ := hcovers.laid.placed hin
  refine ⟨stream, pre, hlex, htokens, hcovers, ?_⟩
  exact (hplaced _ (List.mem_singleton_self _)).1

/-- A comment in front and a word behind do not belong to the program. -/
def framed : String :=
  "// sum\nvar a: integer;\nbegin a := (1 + 2) * 3 end. end"

/-- The program starts at the `var` of the second line and stops behind its dot. -/
theorem parse_spans_cover_framed :
    ∃ (tree : Program) (stream : Stream) (pre : List Token), parse framed = .ok tree ∧
      tree.span = ⟨7, 50, 2, 1⟩ ∧ lex framed = .ok stream ∧
      stream.tokens = pre ++ [⟨.keyword .end, ⟨51, 54, 3, 29⟩⟩] ∧
      tree.Written Covers pre ∧ tree.outline.Placed := by
  have hspan : (parse framed).toOption.map Program.span = some ⟨7, 50, 2, 1⟩ := by decide +kernel
  obtain ⟨tree, htree, hspan⟩ := Option.map_eq_some_iff.mp hspan
  have hparse : parse framed = .ok tree := Except.eq_ok_of_toOption htree
  obtain ⟨stream, pre, hlex, htokens, hwritten, hplaced⟩ := parse_spans_cover framed tree hparse
  have hrest : (lex framed).toOption.map (fun s => s.next.2.tokens) =
      some [⟨.keyword .end, ⟨51, 54, 3, 29⟩⟩] := by decide +kernel
  rw [hlex] at hrest
  have hleft : stream.next.2.tokens = [⟨.keyword .end, ⟨51, 54, 3, 29⟩⟩] := Option.some.inj hrest
  rw [hleft] at htokens
  exact ⟨tree, stream, pre, hparse, hspan, hlex, htokens, hwritten, hplaced⟩

end TinyPascal
