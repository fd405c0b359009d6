import TinyPascal.Proofs.Token.Cuts
import TinyPascal.Proofs.Token.Tiling

/-!
# `Proofs.Token.Locality` — how far a lexeme looks

A lexeme is cut off without looking further than one character behind it. So it stays the same lexeme if
the text behind it is exchanged for one that **starts alike**: with the same character, with a letter for a
letter, with a line feed, or not at all. Only a comment that is never closed looks at everything behind it.

A text is therefore scanned line by line: in front of a line feed nothing changes if another text follows,
and behind it everything is as at the start of a text, but further down.

## Contents
- **Locality.** `Alike`, `cut_local`; `rest_of_openComment`.
- **Line breaks.** `split_line_break`; `Span.moved`, `Token.moved`, `LexError.moved`;
  `scan_line_break`.
-/

namespace TinyPascal

namespace Lexeme

/-! ## Locality -/

/-- The text `behind` starts with a line feed, or with the character that `rest` starts with, or with a
    letter as `rest` does, or is empty. -/
def Alike (rest behind : List Char) : Prop :=
  ∀ d, behind.head? = some d → d = '\n' ∨ rest.head? = some d ∨
    (d.isAlpha = true ∧ ∃ e, rest.head? = some e ∧ e.isAlpha = true)

section Locality

variable {c : Char} {cs rest behind : List Char}

/-- What holds of the next character of `rest`, and of a line feed, holds of the next character of a
    text that starts alike, if it does not tell letters apart. -/
theorem Alike.next {q : Char → Prop} (h : Alike rest behind) (hrest : ∀ d, rest.head? = some d → q d)
    (hline : q '\n') (hletter : ∀ d e, d.isAlpha = true → e.isAlpha = true → q e → q d) :
    ∀ d, behind.head? = some d → q d := by
  intro d hd
  rcases h d hd with rfl | hsame | ⟨hd, e, he, halpha⟩
  · exact hline
  · exact hrest d hsame
  · exact hletter d e hd halpha (hrest e he)

theorem alike_nil : Alike rest [] := by
  intro d hd
  cases hd

/-- A part of a text starts like the text. -/
theorem alike_part {part more : List Char} (h : rest = part ++ more) (hne : part ≠ []) :
    Alike rest part := by
  intro d hd
  cases part with
  | nil => exact absurd rfl hne
  | cons e part =>
      right
      left
      rw [h]
      exact hd

/-- A text in front of a line feed starts like the text without it. -/
theorem alike_line (rest b : List Char) : Alike rest (rest ++ '\n' :: b) := by
  intro d hd
  cases rest with
  | nil =>
      left
      cases hd
      rfl
  | cons e rest => exact .inr (.inl hd)

/-- A class that has all letters or none. -/
def LettersAlike (p : Char → Bool) : Prop :=
  ∀ d e, d.isAlpha = true → e.isAlpha = true → p d = p e

theorem isDigit_letters : LettersAlike Char.isDigit := by
  intro d e hd he
  rw [isDigit_of_isWordStart (Bool.or_eq_true_iff.mpr (.inl hd)),
    isDigit_of_isWordStart (Bool.or_eq_true_iff.mpr (.inl he))]

theorem isWordStart_letters : LettersAlike isWordStart := by
  intro d e hd he
  unfold isWordStart
  rw [hd, he]
  rfl

theorem isWordRest_letters : LettersAlike isWordRest := by
  intro d e hd he
  unfold isWordRest Char.isAlphanum
  rw [hd, he]
  rfl

theorem line_letters : LettersAlike (· != '\n') := by
  intro d e hd he
  have hd : d ≠ '\n' := ne_of_class hd (by decide)
  have he : e ≠ '\n' := ne_of_class he (by decide)
  show (d != '\n') = (e != '\n')
  rw [bne_iff_ne.mpr hd, bne_iff_ne.mpr he]

theorem stop_of_dropWhile {p : Char → Bool} : ∀ d, (cs.dropWhile p).head? = some d → p d = false := by
  intro d hd
  have hnot := List.head?_dropWhile_not p cs
  rw [hd] at hnot
  simpa using hnot

/-- A run ends where the class of its characters ends, if the class has all letters or none. -/
theorem run_local {p : Char → Bool} {cls : List Char → Class} (hline : p '\n' = false)
    (hletter : LettersAlike p) (h : Alike (run p cls cs).rest behind) :
    run p cls ((run p cls cs).more ++ behind) =
      ⟨(run p cls cs).cls, (run p cls cs).more, behind⟩ := by
  have hall : ∀ d ∈ cs.takeWhile p, p d = true := List.all_eq_true.mp List.all_takeWhile
  refine run_append p cls hall (h.next stop_of_dropWhile hline (fun d e hd he hstop => ?_))
  rw [hletter d e hd he, hstop]

/-- A comment ends with its first closing brace. -/
theorem comment_local (h : (comment cs).cls ≠ .fault .openComment) :
    comment ((comment cs).more ++ behind) = ⟨(comment cs).cls, (comment cs).more, behind⟩ := by
  rcases dropWhile_ne_cases '\x7d' cs with hdrop | ⟨rest, hdrop⟩
  · unfold comment at h
    rw [hdrop] at h
    exact absurd rfl h
  · have hcomment : comment cs = ⟨.skip, cs.takeWhile (· != '\x7d') ++ ['\x7d'], rest⟩ := by
      unfold comment
      rw [hdrop]
    have hall : ∀ d ∈ cs.takeWhile (· != '\x7d'), (d != '\x7d') = true :=
      List.all_eq_true.mp List.all_takeWhile
    rw [hcomment]
    show comment ((cs.takeWhile (· != '\x7d') ++ ['\x7d']) ++ behind) = _
    unfold comment
    rw [List.append_assoc, List.takeWhile_append_of_pos hall, List.dropWhile_append_of_pos hall]
    simp

/-- A literal that is not closed ends in front of a line feed, or with the text. -/
theorem quoted_open (h : ∀ d, behind.head? = some d → d = '\n') :
    quoted behind = ⟨none, [], behind⟩ := by
  cases behind with
  | nil => rfl
  | cons d behind =>
      obtain rfl := h d rfl
      simp [quoted]

/-- A quote that no quote follows closes a literal. -/
theorem quoted_close (h : ∀ d, behind.head? = some d → d ≠ '\'') :
    quoted ('\'' :: behind) = ⟨some [], ['\''], behind⟩ := by
  cases behind with
  | nil => simp [quoted]
  | cons d behind =>
      have hd : d ≠ '\'' := h d rfl
      rw [quoted]
      · simp
      · intro more _ hmore
        exact hd (List.cons.inj hmore).1

/-- No letter is a line feed. -/
theorem not_line_feed (d e : Char) (_ : d.isAlpha = true) (he : e.isAlpha = true) (hline : e = '\n') :
    d = '\n' :=
  absurd hline (ne_of_class he (by decide))

/-- A string is read the same before any text that goes on alike. -/
theorem quoted_local (h : Alike (quoted cs).rest behind) :
    quoted ((quoted cs).text ++ behind) = ⟨(quoted cs).content, (quoted cs).text, behind⟩ := by
  fun_induction quoted cs with
  | case1 => exact quoted_open (h.next (fun d hd => by cases hd) rfl not_line_feed)
  | case2 cs ih =>
      have ih := ih h
      simp only [Quoted.grow, List.cons_append, List.nil_append, quoted, ih]
  | case3 cs hnext =>
      have hrest : ∀ d, cs.head? = some d → d ≠ '\'' := by
        rintro d hd rfl
        cases cs with
        | nil => cases hd
        | cons e cs =>
            cases hd
            exact hnext cs rfl rfl
      exact quoted_close (h.next hrest (by decide) (fun d e hd _ _ => ne_of_class hd (by decide)))
  | case4 cs _ _ =>
      refine quoted_open (h.next (fun d hd => ?_) rfl not_line_feed)
      cases hd
      rfl
  | case5 c cs _ hquote hline ih =>
      have ih := ih h
      simp only [Quoted.grow, List.cons_append, List.nil_append]
      rw [quoted, if_neg hquote, if_neg hline, ih]
      · rfl
      · rintro more rfl -
        exact hquote rfl

theorem pair?_line_feed (c : Char) : pair? c '\n' = none := by
  unfold pair?
  split <;> simp_all

theorem pair?_letter (c : Char) {d : Char} (h : d.isAlpha = true) : pair? c d = none := by
  have heq : d ≠ '=' := ne_of_class h (by decide)
  have hgt : d ≠ '>' := ne_of_class h (by decide)
  unfold pair?
  split <;> simp_all

theorem pair?_slash (d : Char) : pair? '/' d = none := by
  unfold pair?
  split <;> simp_all

/-- A single mark looks at the next character only. -/
theorem mark_single (h : ∀ d, behind.head? = some d → pair? c d = none) :
    mark c behind = ⟨single c, [], behind⟩ := by
  cases behind with
  | nil => rfl
  | cons d behind =>
      simp [mark, h d rfl]

/-- An operator or a mark is read the same before any text that goes on alike. -/
theorem mark_local (h : Alike (mark c cs).rest behind) :
    mark c ((mark c cs).more ++ behind) = ⟨(mark c cs).cls, (mark c cs).more, behind⟩ := by
  cases cs with
  | nil =>
      exact mark_single (h.next (fun d hd => by cases hd) (pair?_line_feed c)
        (fun _ _ hd _ _ => pair?_letter c hd))
  | cons d ds =>
      cases hpair : pair? c d with
      | some op => simp [mark, hpair]
      | none =>
          have hmark : mark c (d :: ds) = ⟨single c, [], d :: ds⟩ := by simp [mark, hpair]
          rw [hmark] at h ⊢
          refine mark_single (h.next (fun e he => ?_) (pair?_line_feed c)
            (fun _ _ hd _ _ => pair?_letter c hd))
          cases he
          exact hpair

/-- A mark is no comment, whatever follows it. -/
theorem not_slashes_of_mark (hslashes : ¬(c = '/' ∧ cs.head? = some '/'))
    (h : Alike (mark c cs).rest behind) :
    ¬(c = '/' ∧ ((mark c cs).more ++ behind).head? = some '/') := by
  rintro ⟨rfl, hhead⟩
  have hsingle : mark '/' cs = ⟨single '/', [], cs⟩ := mark_single (fun d _ => pair?_slash d)
  rw [hsingle] at h hhead
  rcases h '/' hhead with hline | hsame | ⟨hletter, _⟩
  · cases hline
  · exact hslashes ⟨rfl, hsame⟩
  · cases hletter

/-- **A lexeme looks at one character behind it.** With a text behind it that starts alike, it is cut off
    as before; only a comment that is not closed goes on. -/
theorem cut_local (hopen : (cut c cs).cls ≠ .fault .openComment) (h : Alike (cut c cs).rest behind) :
    cut c ((cut c cs).more ++ behind) = ⟨(cut c cs).cls, (cut c cs).more, behind⟩ := by
  cases start c cs with
  | blank hblank =>
      have hcut : cut c cs = ⟨.skip, [], cs⟩ := cut_blank hblank
      rw [hcut]
      exact cut_blank hblank
  | slashes hc hhead =>
      subst hc
      rw [cut_slashes hhead] at h ⊢
      -- the second slash stays, so it is still a comment
      have hstill : ((run (· != '\n') (fun _ => .skip) cs).more ++ behind).head? = some '/' := by
        cases cs with
        | nil => cases hhead
        | cons d cs =>
            cases hhead
            simp [run]
      rw [cut_slashes hstill]
      exact run_local (by decide) line_letters h
  | brace hc =>
      subst hc
      rw [cut_brace] at hopen ⊢
      rw [cut_brace]
      exact comment_local hopen
  | quote hc =>
      subst hc
      rw [cut_quote] at h ⊢
      rw [cut_quote, quoted_local h]
  | digit hdigit =>
      rw [cut_digit hdigit] at h ⊢
      rw [cut_digit hdigit]
      exact run_local (by decide) isDigit_letters h
  | letter hletter =>
      rw [cut_letter hletter] at h ⊢
      rw [cut_letter hletter]
      exact run_local (by decide) isWordRest_letters h
  | mark hcut hslashes =>
      rw [hcut cs hslashes] at h ⊢
      rw [hcut _ (not_slashes_of_mark hslashes h)]
      exact mark_local h

theorem single_ne_openComment (c : Char) : single c ≠ .fault .openComment := by
  unfold single
  split <;> simp

/-- Nothing stands behind a comment that is not closed. -/
theorem rest_of_openComment (h : (cut c cs).cls = .fault .openComment) : (cut c cs).rest = [] := by
  cases start c cs with
  | brace hc =>
      subst hc
      rw [cut_brace] at h ⊢
      unfold comment at h ⊢
      split
      · rfl
      · next hdrop =>
          rw [hdrop] at h
          cases h
  | blank hblank =>
      rw [cut_blank hblank] at h
      cases h
  | slashes hc hhead =>
      subst hc
      rw [cut_slashes hhead] at h
      cases h
  | quote hc =>
      subst hc
      rw [cut_quote] at h
      cases hcontent : (quoted cs).content <;> rw [hcontent] at h <;> cases h
  | digit hdigit =>
      rw [cut_digit hdigit] at h
      unfold run number at h
      dsimp only at h
      split at h <;> cases h
  | letter hletter =>
      rw [cut_letter hletter] at h
      cases h
  | mark hcut hslashes =>
      rw [hcut cs hslashes] at h
      unfold mark at h
      split at h
      · exact absurd h (single_ne_openComment c)
      · split at h
        · cases h
        · exact absurd h (single_ne_openComment c)

end Locality

/-! ## Line breaks -/

/-- **A line feed cuts a text in two.** The induction is over the lexemes of the first text: none of them
    looks behind the line feed. -/
theorem split_line_break {a : List Char} (b : List Char)
    (h : .fault .openComment ∉ (split a).map Lexeme.cls) :
    split (a ++ '\n' :: b) = split a ++ ⟨.skip, ['\n']⟩ :: split b := by
  fun_induction split a with
  | case1 =>
      have hcut : cut '\n' b = ⟨.skip, [], b⟩ := cut_blank (by decide)
      rw [List.nil_append, split, hcut]
      rfl
  | case2 c cs ih =>
      rw [List.map_cons, List.mem_cons, not_or] at h
      have hopen : (cut c cs).cls ≠ .fault .openComment := fun heq => h.1 heq.symm
      have hcut := cut_local hopen (alike_line (cut c cs).rest b)
      have htiles : cs ++ '\n' :: b = (cut c cs).more ++ ((cut c cs).rest ++ '\n' :: b) := by
        rw [← List.append_assoc, cut_tiles]
      rw [List.cons_append, htiles, split, hcut, ih h.2]
      rfl

end Lexeme

/-- The place `bytes` further on and `lines` further down. -/
def Pos.moved (bytes lines : Nat) (p : Pos) : Pos :=
  ⟨p.offset + bytes, p.line + lines, p.column⟩

/-- The span `bytes` further on and `lines` further down, in the same column. -/
def Span.moved (bytes lines : Nat) (s : Span) : Span :=
  ⟨s.start + bytes, s.stop + bytes, s.line + lines, s.column⟩

def Token.moved (bytes lines : Nat) (t : Token) : Token :=
  ⟨t.kind, t.span.moved bytes lines⟩

def LexError.moved (bytes lines : Nat) (e : LexError) : LexError :=
  ⟨e.text, e.span.moved bytes lines⟩

section Moved

variable (bytes lines : Nat)

theorem Pos.advance_moved (p : Pos) (c : Char) :
    (p.moved bytes lines).advance c = (p.advance c).moved bytes lines := by
  unfold Pos.advance Pos.moved
  split
  · simp only [Nat.add_right_comm]
  · simp only [Nat.add_right_comm]

theorem Pos.after_moved (p : Pos) (text : List Char) :
    (p.moved bytes lines).after text = (p.after text).moved bytes lines := by
  induction text generalizing p with
  | nil => rfl
  | cons c cs ih => rw [Pos.after_cons, Pos.after_cons, Pos.advance_moved, ih]

/-- Lexemes placed from a moved position have moved spans. -/
theorem Lexeme.locate_moved (p : Pos) (ls : List Lexeme) :
    locate (p.moved bytes lines) ls =
      (locate p ls).map (fun l => (l.1, l.2.moved bytes lines)) := by
  induction ls generalizing p with
  | nil => rfl
  | cons l ls ih =>
      rw [locate, locate, Pos.after_moved, ih]
      rfl

/-- Moved lexemes make moved tokens. -/
theorem Lexeme.tokens_moved (ls : List (Lexeme × Span)) :
    (ls.map (fun l => (l.1, l.2.moved bytes lines))).filterMap token? =
      (ls.filterMap token?).map (Token.moved bytes lines) := by
  rw [List.filterMap_map, List.map_filterMap]
  congr 1
  funext ⟨⟨cls, text⟩, span⟩
  cases cls <;> rfl

/-- Moved lexemes make moved errors. -/
theorem Lexeme.errors_moved (ls : List (Lexeme × Span)) :
    (ls.map (fun l => (l.1, l.2.moved bytes lines))).filterMap error? =
      (ls.filterMap error?).map (LexError.moved bytes lines) := by
  rw [List.filterMap_map, List.map_filterMap]
  congr 1
  funext ⟨⟨cls, text⟩, span⟩
  cases cls <;> rfl

end Moved

theorem Lexeme.locate_append (p : Pos) (ls ms : List Lexeme) :
    locate p (ls ++ ms) = locate p ls ++ locate (p.after (ls.map Lexeme.text).flatten) ms := by
  induction ls generalizing p with
  | nil => rfl
  | cons l ls ih =>
      rw [List.cons_append, locate, locate, ih, List.map_cons, List.flatten_cons, Pos.after_append]
      rfl

/-- Behind a line feed, places are those at the start of a text, but further on and further down. -/
theorem Pos.after_line_break (a : List Char) :
    ({} : Pos).after (a ++ ['\n']) =
      ({} : Pos).moved (byteCount a + 1) (1 + a.count '\n') := by
  have hcounted : ({} : Pos).after (a ++ ['\n']) = Pos.counted (a ++ ['\n']) :=
    Pos.after_counted [] (a ++ ['\n'])
  have hsize : byteCount ['\n'] = 1 := rfl
  rw [hcounted]
  simp [Pos.counted, Pos.moved, hsize, Nat.add_comm, Nat.add_left_comm]

/-- A comment that is not closed is an error, and no other error reads like it. -/
theorem Lexeme.openComment_notMem {ls : List Lexeme} {p : Pos}
    (h : ∀ e ∈ (locate p ls).filterMap error?, e.text ≠ "Unterminated comment") :
    .fault .openComment ∉ ls.map Lexeme.cls := by
  induction ls generalizing p with
  | nil => exact List.not_mem_nil
  | cons l ls ih =>
      obtain ⟨cls, text⟩ := l
      rw [List.map_cons, List.mem_cons, not_or]
      rw [locate] at h
      refine ⟨?_, ih (p := p.after text) (fun e he => h e ?_)⟩
      · rintro rfl
        exact h _ List.mem_cons_self rfl
      · cases cls with
        | skip => exact he
        | token kind => exact he
        | fault fault => exact List.mem_cons_of_mem _ he

theorem Scanner.errors_ofSource (source : String) :
    (Scanner.ofSource source).scan.2.errors =
      (Scanner.ofSource source).upcoming.filterMap Lexeme.error? :=
  List.nil_append _

section LineBreak

variable {a b : String}

/-- The lexemes of two texts with a line feed between them, and where they stand. -/
theorem Scanner.upcoming_line_break
    (h : .fault .openComment ∉ (Lexeme.split a.toList).map Lexeme.cls) :
    ∃ span, (Scanner.ofSource (a ++ "\n" ++ b)).upcoming =
      (Scanner.ofSource a).upcoming ++ (⟨.skip, ['\n']⟩, span) ::
        (Scanner.ofSource b).upcoming.map (fun l =>
          (l.1, l.2.moved (a.utf8ByteSize + 1) (1 + a.toList.count '\n'))) := by
  have htext : (a ++ "\n" ++ b).toList = a.toList ++ '\n' :: b.toList := by simp
  have hplace := Pos.after_line_break a.toList
  rw [byteCount_toList] at hplace
  show ∃ span, Lexeme.locate {} (Lexeme.split (a ++ "\n" ++ b).toList) = _
  rw [htext, Lexeme.split_line_break b.toList h, Lexeme.locate_append, Lexeme.flatten_split,
    Lexeme.locate, ← Pos.after_append, hplace, Lexeme.locate_moved]
  exact ⟨_, rfl⟩

/-- The end of the two texts is the end of the second. -/
theorem Scanner.finish_line_break :
    (Scanner.ofSource (a ++ "\n" ++ b)).finish =
      (Scanner.ofSource b).finish.moved (a.utf8ByteSize + 1) (1 + a.toList.count '\n') := by
  have htext : (a ++ "\n" ++ b).toList = (a.toList ++ ['\n']) ++ b.toList := by simp
  have hplace := Pos.after_line_break a.toList
  rw [byteCount_toList] at hplace
  have hend : ({} : Pos).after (a ++ "\n" ++ b).toList =
      (({} : Pos).after b.toList).moved (a.utf8ByteSize + 1) (1 + a.toList.count '\n') := by
    rw [htext, Pos.after_append, hplace, Pos.after_moved]
  show (({} : Pos).after (a ++ "\n" ++ b).toList).spanTo (({} : Pos).after (a ++ "\n" ++ b).toList) = _
  rw [hend]
  rfl

end LineBreak

/-- **A text is scanned line by line.** If no comment of the first text is left open, a line feed and a
    second text behind it change nothing in the first, and the second gives its own tokens and errors,
    behind the bytes of the first and the line feed, and as many lines further down as they end. -/
theorem scan_line_break (a b : String)
    (h : ∀ e ∈ (Scanner.ofSource a).scan.2.errors, e.text ≠ "Unterminated comment") :
    (Scanner.ofSource (a ++ "\n" ++ b)).scan.1.toList =
      (Scanner.ofSource a).scan.1.tokens ++ (Scanner.ofSource b).scan.1.toList.map
        (Token.moved (a.utf8ByteSize + 1) (1 + a.toList.count '\n')) ∧
    (Scanner.ofSource (a ++ "\n" ++ b)).scan.2.errors =
      (Scanner.ofSource a).scan.2.errors ++ (Scanner.ofSource b).scan.2.errors.map
        (LexError.moved (a.utf8ByteSize + 1) (1 + a.toList.count '\n')) := by
  rw [Scanner.errors_ofSource] at h
  have hopen := Lexeme.openComment_notMem (p := {}) h
  obtain ⟨span, hupcoming⟩ := Scanner.upcoming_line_break (b := b) hopen
  constructor
  · show (Scanner.ofSource (a ++ "\n" ++ b)).upcoming.filterMap Lexeme.token? ++
        [⟨.eof, (Scanner.ofSource (a ++ "\n" ++ b)).finish⟩] = _
    rw [hupcoming, Scanner.finish_line_break, List.filterMap_append, List.filterMap_cons_none rfl,
      Lexeme.tokens_moved, List.append_assoc]
    have hlast : (Scanner.ofSource b).scan.1.toList =
        (Scanner.ofSource b).upcoming.filterMap Lexeme.token? ++ [(Scanner.ofSource b).stream.last] := rfl
    rw [hlast, List.map_append]
    rfl
  · rw [Scanner.errors_ofSource, Scanner.errors_ofSource, Scanner.errors_ofSource, hupcoming,
      List.filterMap_append, List.filterMap_cons_none rfl, Lexeme.errors_moved]

/-- A comment over two lines, a literal that is left open, and a colon at the end. -/
def upperHalf : String := "\x7b é\n\x7d 'a' 'b \x7b\nx :"

/-- An equals sign at the start, and a comment that is left open. -/
def lowerHalf : String := "= é 007 \x7b"

/-- The colon and the equals sign make no arrow, and neither half is read differently. -/
theorem scan_line_break_halves :
    (∀ e ∈ (Scanner.ofSource upperHalf).scan.2.errors, e.text ≠ "Unterminated comment") ∧
    (Scanner.ofSource (upperHalf ++ "\n" ++ lowerHalf)).scan.1.toList =
      (Scanner.ofSource upperHalf).scan.1.tokens ++ (Scanner.ofSource lowerHalf).scan.1.toList.map
        (Token.moved (upperHalf.utf8ByteSize + 1) (1 + upperHalf.toList.count '\n')) ∧
    (Scanner.ofSource (upperHalf ++ "\n" ++ lowerHalf)).scan.2.errors =
      (Scanner.ofSource upperHalf).scan.2.errors ++ (Scanner.ofSource lowerHalf).scan.2.errors.map
        (LexError.moved (upperHalf.utf8ByteSize + 1) (1 + upperHalf.toList.count '\n')) := by
  have hclosed : ∀ e ∈ (Scanner.ofSource upperHalf).scan.2.errors,
      e.text ≠ "Unterminated comment" := by decide +kernel
  exact ⟨hclosed, scan_line_break upperHalf lowerHalf hclosed⟩

end TinyPascal
