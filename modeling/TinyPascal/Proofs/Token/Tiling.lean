import TinyPascal.Token.Scan

/-!
# `Proofs.Token.Tiling` — where the tokens and errors of a text stand

The scanner carries a byte offset, a line and a column along. Here places are **counted** from the text
in front of them, and a text is **tiled** by spans if it can be cut, from left to right, into the
stretches at these spans and stretches that are skipped.

## Contents
- **Counting.** `Pos.counted`, `Span.counted`; `Pos.after_counted`: what is carried along is what is
  counted.
- **What is skipped.** `Skips`; `skips_of_cut`: a lexeme to skip is a blank or a comment.
- **Tilings.** `Tiled`, with the places of its spans; `tiled_split`: the lexemes of a text tile it.
- **Scanning.** `scan_tiles_source`.
-/

namespace TinyPascal

/-! ## Counting -/

/-- The number of bytes of a text in UTF-8. -/
def byteCount : List Char → Nat
  | [] => 0
  | c :: cs => c.utf8Size + byteCount cs

@[simp] theorem byteCount_append (a b : List Char) :
    byteCount (a ++ b) = byteCount a + byteCount b := by
  induction a with
  | nil => simp [byteCount]
  | cons c cs ih => rw [List.cons_append, byteCount, byteCount, ih, Nat.add_assoc]

theorem byteCount_pos {text : List Char} (h : text ≠ []) : 0 < byteCount text := by
  cases text with
  | nil => exact absurd rfl h
  | cons c cs =>
      have hc := c.utf8Size_pos
      rw [byteCount]
      omega

theorem byteCount_toList (s : String) : byteCount s.toList = s.utf8ByteSize := by
  have hlist : ∀ cs : List Char, byteCount cs = (String.ofList cs).utf8ByteSize := by
    intro cs
    induction cs with
    | nil => rfl
    | cons c cs ih =>
        have hcons : String.ofList (c :: cs) = String.singleton c ++ String.ofList cs := by
          rw [← String.toList_inj]
          simp
        rw [hcons, String.utf8ByteSize_append, String.utf8ByteSize_singleton, ← ih]
        rfl
  rw [hlist, String.ofList_toList]

/-- The place behind a text, counted: its bytes, its line feeds, and its characters behind the last
    line feed. -/
def Pos.counted (before : List Char) : Pos where
  offset := byteCount before
  line := 1 + before.count '\n'
  column := 1 + (before.reverse.takeWhile (· != '\n')).length

/-- The span of the stretch `text` behind `before`. -/
def Span.counted (before text : List Char) : Span :=
  (Pos.counted before).spanTo (Pos.counted (before ++ text))

theorem Pos.advance_counted (before : List Char) (c : Char) :
    (Pos.counted before).advance c = Pos.counted (before ++ [c]) := by
  by_cases hc : c = '\n'
  · subst hc
    simp [Pos.advance, Pos.counted, byteCount, Nat.add_assoc]
  · have hne : (c != '\n') = true := by simpa using hc
    have hcount : [c].count '\n' = 0 := by simp [hc]
    simp [Pos.advance, Pos.counted, byteCount, hc, hne, hcount, Nat.add_comm]

/-- **Places that are carried along are exact**: stepping over a text counts it. -/
theorem Pos.after_counted (before text : List Char) :
    (Pos.counted before).after text = Pos.counted (before ++ text) := by
  induction text generalizing before with
  | nil => simp
  | cons c cs ih =>
      rw [Pos.after_cons, Pos.advance_counted, ih]
      simp

/-! ## What is skipped -/

/-- A stretch that belongs to neither a token nor an error if `behind` follows it: a blank, a comment
    that is closed by its first closing brace, or a comment up to the end of its line. -/
inductive Skips : List Char → List Char → Prop where
  | blank {c behind} : c ∈ [' ', '\t', '\r', '\n'] → Skips [c] behind
  | braces {body behind} : '\x7d' ∉ body → Skips ('\x7b' :: (body ++ ['\x7d'])) behind
  | line {body behind} : '\n' ∉ body → (behind = [] ∨ ∃ more, behind = '\n' :: more) →
      Skips ('/' :: '/' :: body) behind

namespace Lexeme

theorem number_ne_skip (digits : List Char) : number digits ≠ .skip := by
  unfold number
  split <;> simp

theorem literal_ne_skip (content : Option (List Char)) : literal content ≠ .skip := by
  cases content <;> simp [literal]

theorem single_ne_skip (c : Char) : single c ≠ .skip := by
  unfold single
  split <;> simp

theorem mark_ne_skip (c : Char) (cs : List Char) : (mark c cs).cls ≠ .skip := by
  unfold mark
  split
  · exact single_ne_skip c
  · split
    · simp
    · exact single_ne_skip c

/-- What stands in front of the first `stop` does not hold it. -/
theorem notMem_takeWhile_ne (stop : Char) (cs : List Char) : stop ∉ cs.takeWhile (· != stop) := by
  intro hmem
  have hall : (cs.takeWhile (· != stop)).all (· != stop) = true := List.all_takeWhile
  have hne := List.all_eq_true.mp hall stop hmem
  simp at hne

/-- The first `stop` ends what stands in front of it, or there is none. -/
theorem dropWhile_ne_cases (stop : Char) (cs : List Char) :
    cs.dropWhile (· != stop) = [] ∨ ∃ more, cs.dropWhile (· != stop) = stop :: more := by
  cases hdrop : cs.dropWhile (· != stop) with
  | nil => exact .inl rfl
  | cons d more =>
      have hd := List.head?_dropWhile_not (· != stop) cs
      rw [hdrop] at hd
      have heq : d = stop := by simpa using hd
      exact .inr ⟨more, by rw [heq]⟩

/-- A line comment ends in front of the first line feed, or at the end of the text. -/
theorem skips_line {cs : List Char} (h : cs.head? = some '/') :
    Skips ('/' :: cs.takeWhile (· != '\n')) (cs.dropWhile (· != '\n')) := by
  obtain ⟨rest, rfl⟩ : ∃ rest, cs = '/' :: rest := by
    cases cs with
    | nil => cases h
    | cons c rest =>
        cases h
        exact ⟨rest, rfl⟩
  have hbody := notMem_takeWhile_ne '\n' rest
  have hbehind := dropWhile_ne_cases '\n' rest
  simpa using Skips.line hbody hbehind

/-- A brace comment that is skipped is closed, by its first closing brace. -/
theorem skips_comment {cs : List Char} (h : (comment cs).cls = .skip) :
    Skips ('\x7b' :: (comment cs).more) (comment cs).rest := by
  unfold comment at h ⊢
  rcases dropWhile_ne_cases '\x7d' cs with hdrop | ⟨rest, hdrop⟩
  · rw [hdrop] at h
    cases h
  · rw [hdrop]
    exact .braces (notMem_takeWhile_ne '\x7d' cs)

/-- **What a cut skips** is a blank or a comment. -/
theorem skips_of_cut {c : Char} {cs : List Char} (h : (cut c cs).cls = .skip) :
    Skips (c :: (cut c cs).more) (cut c cs).rest := by
  unfold cut at h ⊢
  split
  · next hblank =>
      refine .blank ?_
      simpa [isBlank, or_assoc] using hblank
  · split
    · next hslash =>
        obtain ⟨rfl, hhead⟩ := hslash
        exact skips_line hhead
    · split
      · next hbrace =>
          subst hbrace
          exact skips_comment (by simpa [isBlank] using h)
      · -- everything else is a token or a fault
        rename_i hblank hslash hbrace
        rw [if_neg hblank, if_neg hslash, if_neg hbrace] at h
        split at h
        · exact absurd h (literal_ne_skip _)
        · split at h
          · exact absurd h (number_ne_skip _)
          · split at h
            · cases h
            · exact absurd h (mark_ne_skip c cs)

end Lexeme

/-! ## Tilings -/

/-- Behind `before`, the text is made up of the stretches at the spans, in order and none of them empty,
    and of stretches that are skipped. -/
inductive Tiled : List Char → List Char → List Span → Prop where
  | done {before} : Tiled before [] []
  | skip {before gap behind spans} : Skips gap behind → Tiled (before ++ gap) behind spans →
      Tiled before (gap ++ behind) spans
  | stretch {before text behind spans} : text ≠ [] → Tiled (before ++ text) behind spans →
      Tiled before (text ++ behind) (Span.counted before text :: spans)

namespace Tiled

variable {before text : List Char} {spans : List Span}

/-- The spans of a tiling are counted stretches of the text. -/
theorem exists_stretch (h : Tiled before text spans) {s : Span} (hs : s ∈ spans) :
    ∃ u v w, text = u ++ (v ++ w) ∧ v ≠ [] ∧ s = Span.counted (before ++ u) v := by
  induction h with
  | done => cases hs
  | @skip before gap behind spans _ _ ih =>
      obtain ⟨u, v, w, rfl, hv, rfl⟩ := ih hs
      exact ⟨gap ++ u, v, w, by simp, hv, by simp⟩
  | @stretch before text behind spans htext _ ih =>
      rcases List.mem_cons.mp hs with rfl | hs
      · exact ⟨[], text, behind, rfl, htext, by simp⟩
      · obtain ⟨u, v, w, rfl, hv, rfl⟩ := ih hs
        exact ⟨text ++ u, v, w, by simp, hv, by simp⟩

/-- The spans of a tiling stand one behind the other. -/
theorem pairwise (h : Tiled before text spans) : spans.Pairwise (fun a b => a.stop ≤ b.start) := by
  induction h with
  | done => exact .nil
  | skip _ _ ih => exact ih
  | @stretch before text behind spans _ htail ih =>
      refine List.pairwise_cons.mpr ⟨?_, ih⟩
      intro s hs
      obtain ⟨u, v, w, _, _, rfl⟩ := htail.exists_stretch hs
      simp only [Span.counted, Pos.spanTo, Pos.counted, byteCount_append]
      omega

end Tiled

/-- The lexeme is a token or a fault. -/
def Lexeme.solid (l : Lexeme × Span) : Bool :=
  l.1.cls != .skip

/-- **The lexemes of a text tile it**: those that are not skipped stand at the spans. -/
theorem tiled_split (before cs : List Char) :
    Tiled before cs (((Lexeme.locate (Pos.counted before) (Lexeme.split cs)).filter
      Lexeme.solid).map Prod.snd) := by
  fun_induction Lexeme.split cs generalizing before with
  | case1 => exact .done
  | case2 c cs ih =>
      have htiles : c :: cs = (c :: (Lexeme.cut c cs).more) ++ (Lexeme.cut c cs).rest := by
        rw [List.cons_append, Lexeme.cut_tiles]
      have htail := ih (before ++ (c :: (Lexeme.cut c cs).more))
      rw [Lexeme.locate, Pos.after_counted, List.filter_cons]
      by_cases hskip : (Lexeme.cut c cs).cls = .skip
      · rw [if_neg (by simp [Lexeme.solid, hskip])]
        have htiled := Tiled.skip (Lexeme.skips_of_cut hskip) htail
        rwa [← htiles] at htiled
      · rw [if_pos (by simpa [Lexeme.solid] using hskip), List.map_cons]
        have htiled := Tiled.stretch (List.cons_ne_nil _ _) htail
        rwa [← htiles] at htiled

/-! ## Scanning -/

/-- The spans of tokens and errors are those of the lexemes that are not skipped. -/
theorem perm_spans (ls : List (Lexeme × Span)) :
    ((ls.filter Lexeme.solid).map Prod.snd).Perm
      ((ls.filterMap Lexeme.token?).map Token.span ++
        (ls.filterMap Lexeme.error?).map LexError.span) := by
  induction ls with
  | nil => exact .nil
  | cons l ls ih =>
      obtain ⟨⟨cls, text⟩, span⟩ := l
      cases cls with
      | skip => exact ih
      | token kind => exact ih.cons span
      | fault fault => exact (ih.cons span).trans List.perm_middle.symm

/-- The spans of tokens are, in order, among those of the solid lexemes. -/
theorem sublist_token_spans (ls : List (Lexeme × Span)) :
    ((ls.filterMap Lexeme.token?).map Token.span).Sublist
      ((ls.filter Lexeme.solid).map Prod.snd) := by
  induction ls with
  | nil => exact .slnil
  | cons l ls ih =>
      obtain ⟨⟨cls, text⟩, span⟩ := l
      cases cls with
      | skip => exact ih
      | token kind => exact ih.cons_cons span
      | fault fault => exact ih.cons span

/-- So are the spans of errors. -/
theorem sublist_error_spans (ls : List (Lexeme × Span)) :
    ((ls.filterMap Lexeme.error?).map LexError.span).Sublist
      ((ls.filter Lexeme.solid).map Prod.snd) := by
  induction ls with
  | nil => exact .slnil
  | cons l ls ih =>
      obtain ⟨⟨cls, text⟩, span⟩ := l
      cases cls with
      | skip => exact ih
      | token kind => exact ih.cons span
      | fault fault => exact ih.cons_cons span

/-- The span lies within the text and between characters of it, and its line and column are those of its
    first character: one more than the line feeds in front of it, and one more than the characters between
    it and the last of them. -/
structure Span.Exact (source : String) (s : Span) : Prop where
  within : s.stop ≤ source.utf8ByteSize
  start_boundary : (⟨s.start⟩ : String.Pos.Raw).IsValid source
  stop_boundary : (⟨s.stop⟩ : String.Pos.Raw).IsValid source
  place : ∃ before behind, source.toList = before ++ behind ∧ s.start = byteCount before ∧
    s.line = 1 + before.count '\n' ∧
    s.column = 1 + (before.reverse.takeWhile (· != '\n')).length

/-- The end of a front part of a text lies between two characters. -/
theorem isValid_byteCount {source : String} {before behind : List Char}
    (h : source.toList = before ++ behind) :
    (⟨byteCount before⟩ : String.Pos.Raw).IsValid source := by
  have hsource : source = String.ofList before ++ String.ofList behind := by
    rw [← String.toList_inj]
    simpa using h
  have hend : (⟨byteCount before⟩ : String.Pos.Raw) = (String.ofList before).rawEndPos := by
    rw [String.Pos.Raw.ext_iff, String.byteIdx_rawEndPos, ← byteCount_toList, String.toList_ofList]
  rw [hsource, hend]
  exact String.Pos.Raw.isValid_rawEndPos.append_right _

/-- The span of a stretch of the source is exact. -/
theorem Span.exact_counted {source : String} {before text behind : List Char}
    (h : source.toList = before ++ (text ++ behind)) : (Span.counted before text).Exact source := by
  have hstop : source.toList = (before ++ text) ++ behind := by rw [h, List.append_assoc]
  refine ⟨?_, isValid_byteCount h, isValid_byteCount hstop, before, text ++ behind, h, rfl, rfl, rfl⟩
  have hsize := byteCount_toList source
  rw [hstop, byteCount_append] at hsize
  simp only [Span.counted, Pos.spanTo, Pos.counted]
  omega

theorem Span.counted_nonempty {before text : List Char} (h : text ≠ []) :
    (Span.counted before text).start < (Span.counted before text).stop := by
  have hpos := byteCount_pos h
  simp only [Span.counted, Pos.spanTo, Pos.counted, byteCount_append]
  omega

theorem Scanner.finish_ofSource (source : String) :
    (Scanner.ofSource source).finish = Span.counted source.toList [] := by
  have hafter := Pos.after_counted [] source.toList
  rw [List.nil_append] at hafter
  have hfinish : (Scanner.ofSource source).finish =
      ((Pos.counted []).after source.toList).spanTo ((Pos.counted []).after source.toList) := rfl
  rw [hfinish, hafter, Span.counted, List.append_nil]

/-- **Scanning tiles the source, and its places are exact.** The spans of the tokens and of the errors
    are not empty, lie within the text and between its characters, and stand one behind the other, both
    the tokens and the errors in the order of the text; what is outside them is blanks and comments.
    Their lines and columns are those of their first characters. The end of the stream is the end of
    the text, and scanning once more finds the same end, no token and no further error. -/
theorem scan_tiles_source (source : String) :
    (∃ spans : List Span,
      spans.Perm ((Scanner.ofSource source).scan.1.tokens.map Token.span ++
        (Scanner.ofSource source).scan.2.errors.map LexError.span) ∧
      ((Scanner.ofSource source).scan.1.tokens.map Token.span).Sublist spans ∧
      ((Scanner.ofSource source).scan.2.errors.map LexError.span).Sublist spans ∧
      spans.Pairwise (fun a b => a.stop ≤ b.start) ∧
      (∀ s ∈ spans, s.start < s.stop ∧ s.Exact source) ∧
      Tiled [] source.toList spans) ∧
    (Scanner.ofSource source).scan.1.finish.start = source.utf8ByteSize ∧
    (Scanner.ofSource source).scan.1.finish.stop = source.utf8ByteSize ∧
    (Scanner.ofSource source).scan.1.finish.Exact source ∧
    (Scanner.ofSource source).scan.2.scan =
      (⟨[], (Scanner.ofSource source).scan.1.finish⟩, (Scanner.ofSource source).scan.2) := by
  have htiled := tiled_split [] source.toList
  refine ⟨⟨_, perm_spans _, sublist_token_spans _, sublist_error_spans _, htiled.pairwise, ?_, htiled⟩,
    ?_, ?_, ?_, Scanner.scan_skipToEnd _⟩
  · intro s hs
    obtain ⟨u, v, w, hsource, hv, rfl⟩ := htiled.exists_stretch hs
    exact ⟨Span.counted_nonempty hv, Span.exact_counted hsource⟩
  · show (Scanner.ofSource source).finish.start = _
    rw [Scanner.finish_ofSource, ← byteCount_toList]
    rfl
  · show (Scanner.ofSource source).finish.stop = _
    rw [Scanner.finish_ofSource, ← byteCount_toList]
    simp [Span.counted, Pos.spanTo, Pos.counted]
  · show (Scanner.ofSource source).finish.Exact source
    have hall : source.toList = source.toList ++ ([] ++ []) := by simp
    rw [Scanner.finish_ofSource]
    exact Span.exact_counted hall

end TinyPascal
