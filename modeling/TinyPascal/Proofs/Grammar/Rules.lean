import TinyPascal.Token.Basic

/-!
# `Proofs.Grammar.Rules` — the grammar of the language

```text
Program     := GlobalDecls Block '.'
GlobalDecls := ('var' (VarList ':' Type ';')+)* (ProcDecl | FuncDecl)*
ProcDecl    := 'procedure' ident ['(' [ParamList] ')'] ';' Block ';'
FuncDecl    := 'function' ident '(' [ParamList] ')' ':' Type ';' Block ';'
ParamList   := Param (';' Param)*
Param       := VarList ':' Type
Block       := 'begin' StmtList 'end'
StmtList    := [Stmt] (';' [Stmt])*
Stmt        := Assign | Call | If | While | Break | Continue | Return | Write
Assign      := ident ':=' Expr
Call        := ident '(' [ExprList] ')'
If          := 'if' Expr 'then' Block ['else' Block]
While       := 'while' Expr 'do' Block
Return      := 'return' [Expr]
Write       := 'writeln' '(' [ExprList] ')'
Expr        := SimpleExpr [relOp SimpleExpr]
SimpleExpr  := Term (('+' | '-' | 'or') Term)*
Term        := Factor (('*' | '/' | 'and') Factor)*
Factor      := ident ['(' [ExprList] ')'] | number | '(' Expr ')' | 'true' | 'false' | 'not' Factor
```

A `VarList` is identifiers, and an `ExprList` expressions, with commas between them.

## Contents
- **Grammars as data.** `Rhs` is the right-hand side of a rule, `rule` the grammar.
- **Derivations.** `Derives r w`: the word `w` is derived from `r`. `Sentence`: from a program.
- **Stretches of tokens.** `Spells r ts`: the kinds of the tokens `ts` are derived from `r`, with one
  equivalence for each form of a right-hand side.
-/

namespace TinyPascal
namespace Grammar

/-! ## Grammars as data -/

/-- The classes of tokens that rules mention. -/
inductive Terminal where
  | keyword (word : Keyword)
  | operator (op : Operator)
  | punct (mark : Punct)
  | ident
  | number
deriving DecidableEq, Repr

/-- The kinds of tokens in a class. -/
def Terminal.Admits : Terminal → Token.Kind → Prop
  | .keyword word, kind => kind = .keyword word
  | .operator op, kind => kind = .operator op
  | .punct mark, kind => kind = .punct mark
  | .ident, kind => ∃ name, kind = .ident name
  | .number, kind => ∃ value, kind = .int value

inductive NonTerminal where
  | program | globalDecls | procDecl | funcDecl | paramList | param | varList | type
  | block | stmtList | stmt | assign | call | if | while | return | write
  | exprList | expr | relOp | simpleExpr | term | factor
deriving DecidableEq, Repr

/-- Right-hand sides of rules: sequences, alternatives, repetition and options. -/
inductive Rhs where
  | tok (t : Terminal)
  | nt (n : NonTerminal)
  | seq (parts : List Rhs)
  | alt (choices : List Rhs)
  | star (r : Rhs)
  | opt (r : Rhs)

namespace Rhs

/-- A reserved word. -/
abbrev kw (word : Keyword) : Rhs := .tok (.keyword word)

/-- An operator. -/
abbrev op (o : Operator) : Rhs := .tok (.operator o)

/-- A punctuation mark. -/
abbrev mark (p : Punct) : Rhs := .tok (.punct p)

/-- One or more. -/
abbrev plus (r : Rhs) : Rhs := .seq [r, .star r]

/-- One or more, with a mark between them. -/
abbrev sepBy (r : Rhs) (p : Punct) : Rhs := .seq [r, .star (.seq [mark p, r])]

end Rhs

open Rhs in
/-- The rules. -/
def rule : NonTerminal → Rhs
  | .program => .seq [.nt .globalDecls, .nt .block, mark .dot]
  | .globalDecls => .seq [
      .star (.seq [kw .var, plus (.seq [.nt .varList, mark .colon, .nt .type, mark .semicolon])]),
      .star (.alt [.nt .procDecl, .nt .funcDecl])]
  | .procDecl => .seq [kw .procedure, .tok .ident,
      .opt (.seq [mark .lparen, .opt (.nt .paramList), mark .rparen]),
      mark .semicolon, .nt .block, mark .semicolon]
  | .funcDecl => .seq [kw .function, .tok .ident, mark .lparen, .opt (.nt .paramList), mark .rparen,
      mark .colon, .nt .type, mark .semicolon, .nt .block, mark .semicolon]
  | .paramList => sepBy (.nt .param) .semicolon
  | .param => .seq [.nt .varList, mark .colon, .nt .type]
  | .varList => sepBy (.tok .ident) .comma
  | .type => .alt [kw .integer, kw .boolean]
  | .block => .seq [kw .begin, .nt .stmtList, kw .end]
  | .stmtList => .seq [.opt (.nt .stmt), .star (.seq [mark .semicolon, .opt (.nt .stmt)])]
  | .stmt => .alt [.nt .assign, .nt .call, .nt .if, .nt .while, kw .break, kw .continue, .nt .return,
      .nt .write]
  | .assign => .seq [.tok .ident, op .assign, .nt .expr]
  | .call => .seq [.tok .ident, mark .lparen, .opt (.nt .exprList), mark .rparen]
  | .if => .seq [kw .if, .nt .expr, kw .then, .nt .block, .opt (.seq [kw .else, .nt .block])]
  | .while => .seq [kw .while, .nt .expr, kw .do, .nt .block]
  | .return => .seq [kw .return, .opt (.nt .expr)]
  | .write => .seq [kw .writeln, mark .lparen, .opt (.nt .exprList), mark .rparen]
  | .exprList => sepBy (.nt .expr) .comma
  | .expr => .seq [.nt .simpleExpr, .opt (.seq [.nt .relOp, .nt .simpleExpr])]
  | .relOp => .alt [op .eq, op .notEq, op .lt, op .ltEq, op .gt, op .gtEq]
  | .simpleExpr =>
      .seq [.nt .term, .star (.seq [.alt [op .plus, op .minus, kw .or], .nt .term])]
  | .term => .seq [.nt .factor, .star (.seq [.alt [op .star, op .slash, kw .and], .nt .factor])]
  | .factor => .alt [
      .seq [.tok .ident, .opt (.seq [mark .lparen, .opt (.nt .exprList), mark .rparen])],
      .tok .number,
      .seq [mark .lparen, .nt .expr, mark .rparen],
      kw .true,
      kw .false,
      .seq [kw .not, .nt .factor]]

/-! ## Derivations -/

/-- The word `w` is derived from the right-hand side. -/
inductive Derives : Rhs → List Token.Kind → Prop where
  | tok {t kind} : t.Admits kind → Derives (.tok t) [kind]
  | nt {n w} : Derives (rule n) w → Derives (.nt n) w
  | seqNil : Derives (.seq []) []
  | seqCons {r more u v} : Derives r u → Derives (.seq more) v → Derives (.seq (r :: more)) (u ++ v)
  | alt {choices r w} : r ∈ choices → Derives r w → Derives (.alt choices) w
  | starNil {r} : Derives (.star r) []
  | starCons {r u v} : Derives r u → Derives (.star r) v → Derives (.star r) (u ++ v)
  | optNone {r} : Derives (.opt r) []
  | optSome {r w} : Derives r w → Derives (.opt r) w

/-- The sentences of the language: whole programs. -/
def Sentence (w : List Token.Kind) : Prop :=
  Derives (.nt .program) w

/-- The end of a stream belongs to no sentence. -/
theorem Derives.ne_eof {r : Rhs} {w : List Token.Kind} (h : Derives r w) : .eof ∉ w := by
  induction h with
  | @tok t kind h =>
      intro hmem
      cases List.mem_singleton.mp hmem
      cases t with
      | keyword word => cases h
      | operator op => cases h
      | punct mark => cases h
      | ident => obtain ⟨_, h⟩ := h; cases h
      | number => obtain ⟨_, h⟩ := h; cases h
  | nt _ ih => exact ih
  | seqNil => exact List.not_mem_nil
  | seqCons _ _ ih ih' => exact fun hmem => (List.mem_append.mp hmem).elim ih ih'
  | alt _ _ ih => exact ih
  | starNil => exact List.not_mem_nil
  | starCons _ _ ih ih' => exact fun hmem => (List.mem_append.mp hmem).elim ih ih'
  | optNone => exact List.not_mem_nil
  | optSome _ ih => exact ih

/-! ## Stretches of tokens -/

/-- The kinds of the tokens are derived from the right-hand side. -/
def Spells (r : Rhs) (ts : List Token) : Prop :=
  Derives r (ts.map Token.kind)

section Spells

variable {r : Rhs} {more choices : List Rhs} {t : Terminal} {ts : List Token}

/-- A terminal spells one token that it admits. -/
theorem spells_tok : Spells (.tok t) ts ↔ ∃ tk, ts = [tk] ∧ t.Admits tk.kind := by
  unfold Spells
  constructor
  · intro h
    generalize hw : ts.map Token.kind = w at h
    cases h with
    | tok h =>
        obtain ⟨tk, rfl, rfl⟩ := List.map_eq_singleton_iff.mp hw
        exact ⟨tk, rfl, h⟩
  · rintro ⟨tk, rfl, h⟩
    exact .tok h

theorem spells_nt {n : NonTerminal} : Spells (.nt n) ts ↔ Spells (rule n) ts := by
  unfold Spells
  constructor
  · intro h
    cases h with
    | nt h => exact h
  · exact Derives.nt

theorem spells_seq_nil : Spells (.seq []) ts ↔ ts = [] := by
  unfold Spells
  constructor
  · intro h
    generalize hw : ts.map Token.kind = w at h
    cases h
    exact List.map_eq_nil_iff.mp hw
  · rintro rfl
    exact .seqNil

/-- A sequence spells what its first part and the others spell one behind the other. -/
theorem spells_seq_cons :
    Spells (.seq (r :: more)) ts ↔ ∃ u v, ts = u ++ v ∧ Spells r u ∧ Spells (.seq more) v := by
  unfold Spells
  constructor
  · intro h
    generalize hw : ts.map Token.kind = w at h
    cases h with
    | seqCons hr hmore =>
        obtain ⟨u, v, rfl, rfl, rfl⟩ := List.map_eq_append_iff.mp hw
        exact ⟨u, v, rfl, hr, hmore⟩
  · rintro ⟨u, v, rfl, hr, hmore⟩
    rw [List.map_append]
    exact .seqCons hr hmore

theorem spells_alt : Spells (.alt choices) ts ↔ ∃ r ∈ choices, Spells r ts := by
  unfold Spells
  constructor
  · intro h
    cases h with
    | alt hr h => exact ⟨_, hr, h⟩
  · rintro ⟨r, hr, h⟩
    exact .alt hr h

/-- A repetition spells nothing, or one pass and then a repetition. -/
theorem spells_star :
    Spells (.star r) ts ↔ ts = [] ∨ ∃ u v, ts = u ++ v ∧ Spells r u ∧ Spells (.star r) v := by
  unfold Spells
  constructor
  · intro h
    generalize hw : ts.map Token.kind = w at h
    cases h with
    | starNil => exact .inl (List.map_eq_nil_iff.mp hw)
    | starCons hr hmore =>
        obtain ⟨u, v, rfl, rfl, rfl⟩ := List.map_eq_append_iff.mp hw
        exact .inr ⟨u, v, rfl, hr, hmore⟩
  · rintro (rfl | ⟨u, v, rfl, hr, hmore⟩)
    · exact .starNil
    · rw [List.map_append]
      exact .starCons hr hmore

/-- An option spells nothing, or what stands in it. -/
theorem spells_opt : Spells (.opt r) ts ↔ ts = [] ∨ Spells r ts := by
  unfold Spells
  constructor
  · intro h
    generalize hw : ts.map Token.kind = w at h
    cases h with
    | optNone => exact .inl (List.map_eq_nil_iff.mp hw)
    | optSome h => exact .inr (hw ▸ h)
  · rintro (rfl | h)
    · exact .optNone
    · exact .optSome h

/-- A sequence of one part. -/
theorem spells_last : Spells (.seq [r]) ts ↔ Spells r ts := by
  rw [spells_seq_cons]
  constructor
  · rintro ⟨u, v, rfl, h, hv⟩
    rw [spells_seq_nil.mp hv, List.append_nil]
    exact h
  · intro h
    exact ⟨ts, [], (List.append_nil ts).symm, h, spells_seq_nil.mpr rfl⟩

/-- A sequence that starts with a token. -/
theorem spells_tok_cons :
    Spells (.seq (.tok t :: more)) ts ↔
      ∃ tk v, ts = tk :: v ∧ t.Admits tk.kind ∧ Spells (.seq more) v := by
  rw [spells_seq_cons]
  constructor
  · rintro ⟨u, v, rfl, hu, hv⟩
    obtain ⟨tk, rfl, h⟩ := spells_tok.mp hu
    exact ⟨tk, v, rfl, h, hv⟩
  · rintro ⟨tk, v, rfl, h, hv⟩
    exact ⟨[tk], v, rfl, spells_tok.mpr ⟨tk, rfl, h⟩, hv⟩

theorem spells_ident : Spells (.tok .ident) ts ↔ ∃ x span, ts = [⟨.ident x, span⟩] := by
  rw [spells_tok]
  constructor
  · rintro ⟨⟨kind, span⟩, rfl, x, hx⟩
    cases hx
    exact ⟨x, span, rfl⟩
  · rintro ⟨x, span, rfl⟩
    exact ⟨_, rfl, x, rfl⟩

theorem spells_kw {word : Keyword} : Spells (.kw word) ts ↔ ∃ span, ts = [⟨.keyword word, span⟩] := by
  rw [spells_tok]
  constructor
  · rintro ⟨⟨kind, span⟩, rfl, hk⟩
    cases hk
    exact ⟨span, rfl⟩
  · rintro ⟨span, rfl⟩
    exact ⟨_, rfl, rfl⟩

theorem spells_mark {p : Punct} : Spells (.mark p) ts ↔ ∃ span, ts = [⟨.punct p, span⟩] := by
  rw [spells_tok]
  constructor
  · rintro ⟨⟨kind, span⟩, rfl, hk⟩
    cases hk
    exact ⟨span, rfl⟩
  · rintro ⟨span, rfl⟩
    exact ⟨_, rfl, rfl⟩

/-- One or more: one, and nothing or one or more behind it. -/
theorem spells_plus :
    Spells (.plus r) ts ↔ ∃ u v, ts = u ++ v ∧ Spells r u ∧ (v = [] ∨ Spells (.plus r) v) := by
  rw [spells_seq_cons]
  constructor
  · rintro ⟨u, v, rfl, hu, hv⟩
    refine ⟨u, v, rfl, hu, ?_⟩
    rcases spells_star.mp (spells_last.mp hv) with rfl | ⟨w, z, rfl, hw, hz⟩
    · exact .inl rfl
    · exact .inr (spells_seq_cons.mpr ⟨w, z, rfl, hw, spells_last.mpr hz⟩)
  · rintro ⟨u, v, rfl, hu, hv⟩
    refine ⟨u, v, rfl, hu, spells_last.mpr (spells_star.mpr ?_)⟩
    rcases hv with rfl | hv
    · exact .inl rfl
    · obtain ⟨w, z, rfl, hw, hz⟩ := spells_seq_cons.mp hv
      exact .inr ⟨w, z, rfl, hw, spells_last.mp hz⟩

/-- One or more with marks between them: one, and nothing or a mark and one or more behind it. -/
theorem spells_sepBy {p : Punct} :
    Spells (.sepBy r p) ts ↔ ∃ u v, ts = u ++ v ∧ Spells r u ∧
      (v = [] ∨ ∃ span w, v = ⟨.punct p, span⟩ :: w ∧ Spells (.sepBy r p) w) := by
  rw [spells_seq_cons]
  constructor
  · rintro ⟨u, v, rfl, hu, hv⟩
    refine ⟨u, v, rfl, hu, ?_⟩
    rcases spells_star.mp (spells_last.mp hv) with rfl | ⟨a, z, rfl, ha, hz⟩
    · exact .inl rfl
    · obtain ⟨⟨_, span⟩, w, rfl, rfl, hw⟩ := spells_tok_cons.mp ha
      refine .inr ⟨span, w ++ z, rfl, ?_⟩
      exact spells_seq_cons.mpr ⟨w, z, rfl, spells_last.mp hw, spells_last.mpr hz⟩
  · rintro ⟨u, v, rfl, hu, hv⟩
    refine ⟨u, v, rfl, hu, spells_last.mpr (spells_star.mpr ?_)⟩
    rcases hv with rfl | ⟨span, w, rfl, hw⟩
    · exact .inl rfl
    · obtain ⟨a, z, rfl, ha, hz⟩ := spells_seq_cons.mp hw
      refine .inr ⟨⟨.punct p, span⟩ :: a, z, rfl, ?_, spells_last.mp hz⟩
      exact spells_tok_cons.mpr ⟨_, a, rfl, rfl, spells_last.mpr ha⟩

end Spells

end Grammar
end TinyPascal
