import TinyPascal.Proofs.Compile
import TinyPascal.Proofs.Grammar.ViablePrefix
import TinyPascal.Proofs.Typing.Blame

/-!
# `Proofs.Diagnostic` — errors point at source text

A report cuts the span of its error down to the source, and stretches an empty span to one byte. This
module shows that there is nothing to cut and nothing to stretch: **the span of every error is a stretch of
the text**, and it is empty only at the end of the text. Lexical errors stand where a lexeme was cut off,
syntax errors at a token or at the end, and violations of the rules at a node of the tree, over its tokens.

## Contents
- **Located spans.** `Span.Located`; `Located.report`: a report shows a located span as it is.
- **Where the stages fail.** `lex_eq_error`, `check_eq_error`.
- **What they point at.** `located_of_token`, `located_of_covers`, `error_points_at_source`.
-/

namespace TinyPascal

open TinyPascal.Grammar TinyPascal.Parser

/-! ## Located spans -/

/-- The span is an exact stretch of the text, and empty only at its end. -/
structure Span.Located (source : String) (s : Span) : Prop where
  le : s.start ≤ s.stop
  places : s.Exact source
  nonempty : s.start ≠ source.utf8ByteSize → s.start < s.stop

namespace Span.Located

variable {source : String} {s : Span}

theorem of_lt (h : s.start < s.stop) (hplaces : s.Exact source) : s.Located source :=
  ⟨Nat.le_of_lt h, hplaces, fun _ => h⟩

/-- A report shows a located span as it is. -/
theorem report (h : s.Located source) (message label : String) :
    (Report.about message source s label).offset = s.start ∧
      (Report.about message source s label).length = s.stop - s.start := by
  have hwithin := h.places.within
  have hle := h.le
  have hoffset : min s.start source.utf8ByteSize = s.start := by omega
  refine ⟨hoffset, ?_⟩
  show min (max (s.stop - s.start) 1) (source.utf8ByteSize - min s.start source.utf8ByteSize) = _
  rw [hoffset]
  by_cases hend : s.start = source.utf8ByteSize
  · omega
  · have hlt := h.nonempty hend
    omega

end Span.Located

/-- The end of a text is located. -/
theorem located_finish (source : String) : (Scanner.ofSource source).finish.Located source := by
  have hall : source.toList = source.toList ++ ([] ++ []) := by simp
  have hstart : (Span.counted source.toList []).start = source.utf8ByteSize :=
    byteCount_toList source
  rw [Scanner.finish_ofSource]
  refine ⟨?_, Span.exact_counted hall, fun hne => absurd hstart hne⟩
  simp [Span.counted, Pos.spanTo, Pos.counted]

/-- The spans of a tiling are stretches of the text and not empty. -/
theorem Tiled.exact {source : String} {spans : List Span} (h : Tiled [] source.toList spans) {s : Span}
    (hs : s ∈ spans) : s.start < s.stop ∧ s.Exact source := by
  obtain ⟨u, v, w, hsource, hv, rfl⟩ := h.exists_stretch hs
  exact ⟨Span.counted_nonempty hv, Span.exact_counted hsource⟩

/-! ## Where the stages fail -/

/-- The lexical error of a text is the first one that its scanner meets. -/
theorem lex_eq_error {source : String} {e : Error} (h : lex source = .error e) :
    ∃ le more, (Scanner.ofSource source).scan.2.errors = le :: more ∧ e = .lexical le := by
  obtain ⟨le, hsource, rfl⟩ := Except.mapError_eq_error.mp h
  unfold Stream.ofSource at hsource
  dsimp only at hsource
  split at hsource
  · next more herrors =>
      cases hsource
      exact ⟨le, more, herrors, rfl⟩
  · cases hsource

/-- Checking fails where one of its stages does: cutting the text, reading the tokens, or checking the
    tree. -/
theorem check_eq_error {source : String} {e : Error} (h : check source = .error e) :
    lex source = .error e ∨
      (∃ stream se, lex source = .ok stream ∧ stream.next.1 = .error se ∧ e = .syntactic se) ∨
      ∃ tree se, parse source = .ok tree ∧ tree.check = .error se ∧ e = .semantic se := by
  rcases Except.bind_eq_error.mp h with hparse | ⟨tree, hparse, hrest⟩
  · rcases Except.bind_eq_error.mp hparse with hlex | ⟨stream, hlex, hread⟩
    · exact .inl hlex
    · obtain ⟨se, hnext, rfl⟩ := Except.mapError_eq_error.mp hread
      exact .inr (.inl ⟨stream, se, hlex, hnext, rfl⟩)
  · rcases Except.bind_eq_error.mp hrest with hcheck | ⟨_, _, hpure⟩
    · obtain ⟨se, hviolation, rfl⟩ := Except.mapError_eq_error.mp hcheck
      exact .inr (.inr ⟨tree, se, hparse, hviolation, rfl⟩)
    · cases hpure

/-- The errors of all stages are errors of checking. -/
theorem check_of_stage_error {source : String} {e : Error}
    (h : lex source = .error e ∨ parse source = .error e ∨ check source = .error e ∨
      compile source = .error e) : check source = .error e := by
  rcases h with h | h | h | h
  · unfold check parse
    rw [h]
    rfl
  · unfold check
    rw [h]
    rfl
  · exact h
  · exact compile_eq_error_iff.mp h

/-! ## What they point at -/

section Tokens

variable {source : String} {stream : Stream}

theorem exact_of_token (h : lex source = .ok stream) {t : Token} (ht : t ∈ stream.tokens) :
    t.span.start < t.span.stop ∧ t.span.Exact source := by
  rw [stream_of_lex h] at ht
  exact (tiled_split [] source.toList).exact
    ((sublist_token_spans _).subset (List.mem_map_of_mem ht))

/-- Tokens are located, and so is the end-of-stream token. -/
theorem located_of_token (h : lex source = .ok stream) {t : Token} (ht : t ∈ stream.toList) :
    t.span.Located source := by
  rcases List.mem_append.mp ht with ht | ht
  · obtain ⟨hlt, hplaces⟩ := exact_of_token h ht
    exact .of_lt hlt hplaces
  · obtain rfl := List.mem_singleton.mp ht
    rw [stream_of_lex h]
    exact located_finish source

/-- What covers a stretch of tokens is located: it starts with one token and stops with another. -/
theorem located_of_covers (h : lex source = .ok stream) {span : Span} {us : List Token}
    (hus : us <:+: stream.tokens) (hspan : Covers span us) : span.Located source := by
  have hin : InOrder us := (inOrder_of_lex h).sublist hus.sublist
  have hwhole := hspan
  obtain ⟨first, last, hfirst, hlast, rfl⟩ := hspan
  have hfirstPlace := (exact_of_token h (hus.subset (List.mem_of_mem_head? hfirst))).2
  obtain ⟨hlt, hlastPlace⟩ := exact_of_token h (hus.subset (List.mem_of_mem_getLast? hlast))
  have hstart : first.span.start ≤ last.span.start := by
    obtain ⟨front, rfl⟩ := List.getLast?_eq_some_iff.mp hlast
    have hpart : Covers last.span [last] := ⟨last, last, rfl, rfl, rfl⟩
    exact (hwhole.inside hpart (List.suffix_append front [last]).isInfix hin).1
  refine .of_lt (Nat.lt_of_le_of_lt hstart hlt) ⟨hlastPlace.within, hfirstPlace.start_boundary,
    hlastPlace.stop_boundary, hfirstPlace.place⟩

end Tokens

/-- A violation of the rules is located: it stands at a node of the tree. -/
theorem located_of_check_error {source : String} {tree : Program} {e : SemanticError}
    (hparse : parse source = .ok tree) (h : tree.check = .error e) : e.span.Located source := by
  obtain ⟨stream, hlex, hnext⟩ := parse_eq_ok.mp hparse
  obtain ⟨pre, htokens, hwritten⟩ := written_of_next covering_covers hnext
  have hpre : pre <:+: stream.tokens := by
    rw [htokens]
    exact (List.prefix_append pre _).isInfix
  have hin : InOrder pre := (inOrder_of_lex hlex).sublist hpre.sublist
  have hcovers : tree.Written Covers pre := by
    refine hwritten.imp (fun span us hus hspan => ?_)
    exact hspan (hin.sublist hus.sublist)
  refine blame_program h (hcovers.laid.all ?_ _ (List.mem_singleton_self _))
  intro span us hus hspan
  exact located_of_covers hlex (hus.trans hpre) hspan

/-- The errors of a scanner stand one behind the other, at stretches of the text. -/
theorem scan_errors_rise {source : String} {le : LexError} {more : List LexError}
    (h : (Scanner.ofSource source).scan.2.errors = le :: more) :
    le.span.Located source ∧ ∀ other ∈ more, le.span.start < other.span.start := by
  have htiled := tiled_split [] source.toList
  have hsub := sublist_error_spans (Scanner.ofSource source).upcoming
  have herrors : (Scanner.ofSource source).upcoming.filterMap Lexeme.error? = le :: more := h
  rw [herrors, List.map_cons] at hsub
  obtain ⟨hlt, hplaces⟩ := htiled.exact (hsub.subset List.mem_cons_self)
  refine ⟨.of_lt hlt hplaces, fun other hother => ?_⟩
  have hbehind := List.rel_of_pairwise_cons (htiled.pairwise.sublist hsub) (List.mem_map_of_mem hother)
  exact Nat.lt_of_lt_of_le hlt hbehind

/-- **Every error points at source text.** Where any of the stages fails, the span of the error lies
    within the text and between characters of it, its line and column are those of its first character,
    and the report shows it as it is: at least one byte, unless it stands at the end of the text. A
    lexical error is the one that starts first among those that the scanner meets. -/
theorem error_points_at_source (source : String) (e : Error)
    (h : lex source = .error e ∨ parse source = .error e ∨ check source = .error e ∨
      compile source = .error e) :
    e.span.start ≤ e.span.stop ∧ e.span.Exact source ∧
      (e.report source).offset = e.span.start ∧
      (e.report source).length = e.span.stop - e.span.start ∧
      (e.span.start ≠ source.utf8ByteSize → 1 ≤ (e.report source).length) ∧
      ∀ le, e = .lexical le → ∃ more, (Scanner.ofSource source).scan.2.errors = le :: more ∧
        ∀ other ∈ more, le.span.start < other.span.start := by
  have hstages : e.span.Located source ∧
      ∀ le, e = .lexical le → ∃ more, (Scanner.ofSource source).scan.2.errors = le :: more ∧
        ∀ other ∈ more, le.span.start < other.span.start := by
    rcases check_eq_error (check_of_stage_error h) with
      hlex | ⟨stream, se, hlex, hnext, rfl⟩ | ⟨tree, se, hparse, hcheck, rfl⟩
    · obtain ⟨le, more, herrors, rfl⟩ := lex_eq_error hlex
      obtain ⟨hlocated, hfirst⟩ := scan_errors_rise herrors
      refine ⟨hlocated, ?_⟩
      rintro le ⟨⟩
      exact ⟨more, herrors, hfirst⟩
    · obtain ⟨pre, t, behind, htokens, hspan, _⟩ := Stream.next_error_misfit hnext
      refine ⟨?_, nofun⟩
      show se.span.Located source
      rw [hspan]
      exact located_of_token hlex (by rw [htokens]; exact List.mem_append_right _ List.mem_cons_self)
    · exact ⟨located_of_check_error hparse hcheck, nofun⟩
  obtain ⟨hlocated, hlexical⟩ := hstages
  obtain ⟨hoffset, hlength⟩ := hlocated.report e.message e.label
  refine ⟨hlocated.le, hlocated.places, hoffset, hlength, fun hne => ?_, hlexical⟩
  have hlt := hlocated.nonempty hne
  show 1 ≤ (Report.about e.message source e.span e.label).length
  omega

/-- A name that is not declared, behind a letter of two bytes. -/
def accented : String :=
  "\x7bé\x7d begin x := 1 end."

/-- The name is the eleventh character of the text and the twelfth of its bytes. -/
theorem error_points_at_source_accented :
    ∃ e, compile accented = .error e ∧ e.span = ⟨11, 12, 1, 11⟩ ∧ e.span.Exact accented ∧
      (e.report accented).offset = 11 ∧ (e.report accented).length = 1 := by
  have hspan : (match compile accented with
      | .ok _ => none
      | .error e => some e.span) = some ⟨11, 12, 1, 11⟩ := by decide +kernel
  cases hcompile : compile accented with
  | ok code =>
      rw [hcompile] at hspan
      cases hspan
  | error e =>
      rw [hcompile] at hspan
      have hspan : e.span = ⟨11, 12, 1, 11⟩ := Option.some.inj hspan
      obtain ⟨_, hexact, hoffset, hlength, _⟩ :=
        error_points_at_source accented e (.inr (.inr (.inr hcompile)))
      rw [hspan] at hoffset hlength
      exact ⟨e, rfl, hspan, hexact, hoffset, hlength⟩

end TinyPascal
