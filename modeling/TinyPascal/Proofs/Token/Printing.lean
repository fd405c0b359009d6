import TinyPascal.Proofs.Code.Names
import TinyPascal.Token.Scan

/-!
# `Proofs.Token.Printing` — scanning undoes printing

Kinds of tokens are written one behind the other with a blank between them, each as it is quoted in
messages; only a string has its quotes doubled. Scanned again, **the text gives the same kinds**.

## Contents
- **Written kinds.** `isWord`; `Token.Kind.Writable`: the kinds that a text can hold. `Token.Kind.source`,
  `writeKinds`.
- **One lexeme.** `Cuts`: a stretch that is cut off as one token when a blank or the end follows; one lemma
  for each class of tokens, `cuts_source` for all of them.
- **The whole text.** `classes_split_writeKinds`, `scan_writeKinds`.
-/

namespace TinyPascal

/-! ## Written kinds -/

/-- A word: an ASCII letter or an underscore, and then such characters and digits. -/
def isWord (name : String) : Bool :=
  match name.toList with
  | [] => false
  | c :: cs => (c.isAlpha || c = '_') && cs.all (fun d => d.isAlphanum || d = '_')

theorem isWord_iff {name : String} :
    isWord name = true ↔ ∃ c cs, name.toList = c :: cs ∧ Lexeme.isWordStart c = true ∧
      ∀ d ∈ cs, Lexeme.isWordRest d = true := by
  unfold isWord
  cases hname : name.toList with
  | nil => simp
  | cons c cs =>
      rw [Bool.and_eq_true, List.all_eq_true]
      constructor
      · rintro ⟨hc, hcs⟩
        exact ⟨c, cs, rfl, hc, hcs⟩
      · rintro ⟨_, _, heq, hc, hcs⟩
        cases heq
        exact ⟨hc, hcs⟩

/-- The text with every quote written twice. -/
def doubleQuotes : List Char → List Char
  | [] => []
  | c :: cs => if c = '\'' then '\'' :: '\'' :: doubleQuotes cs else c :: doubleQuotes cs

namespace Token.Kind

/-- The kinds that a text can hold: numbers in their range, words that are no keyword in any letter case,
    strings of one line. -/
def Writable : Kind → Prop
  | .int n => 0 ≤ n ∧ n ≤ Lexeme.maxInt
  | .str content => '\n' ∉ content.toList
  | .ident name => isWord name = true ∧ ∀ k ∈ Keyword.all, Keyword.fold name ≠ k.spelling
  | .keyword _ | .operator _ | .punct _ => True
  | .eof => False

instance : DecidablePred Writable
  | .int n => inferInstanceAs (Decidable (0 ≤ n ∧ n ≤ Lexeme.maxInt))
  | .str content => inferInstanceAs (Decidable ('\n' ∉ content.toList))
  | .ident name =>
    inferInstanceAs (Decidable (isWord name = true ∧ ∀ k ∈ Keyword.all, Keyword.fold name ≠ k.spelling))
  | .keyword _ | .operator _ | .punct _ => isTrue trivial
  | .eof => isFalse id

/-- How a kind is written in a text: as it is quoted, but with the quotes inside a string doubled. -/
def source : Kind → String
  | .str content => "'" ++ String.ofList (doubleQuotes content.toList) ++ "'"
  | kind => kind.text

end Token.Kind

/-- Kinds written one behind the other, with a blank between them. -/
def writeKinds (kinds : List Token.Kind) : String :=
  " ".intercalate (kinds.map Token.Kind.source)

namespace Lexeme

/-! ## One lexeme -/

/-- Behind a written kind comes a blank or the end of the text. -/
def Gap (behind : List Char) : Prop :=
  behind = [] ∨ ∃ more, behind = ' ' :: more

/-- The text is cut off as one token of the given kind, if a blank or the end follows. -/
def Cuts (text : List Char) (kind : Token.Kind) : Prop :=
  ∃ c cs, text = c :: cs ∧ ∀ behind, Gap behind → cut c (cs ++ behind) = ⟨.token kind, cs, behind⟩

/-- A run ends in front of a character of another class. -/
theorem run_append (p : Char → Bool) (cls : List Char → Class) {cs behind : List Char}
    (hall : ∀ c ∈ cs, p c = true) (hstop : ∀ d, behind.head? = some d → p d = false) :
    run p cls (cs ++ behind) = ⟨cls cs, cs, behind⟩ := by
  unfold run
  rw [List.takeWhile_append_of_pos hall, List.dropWhile_append_of_pos hall]
  cases behind with
  | nil => simp
  | cons d behind => simp [hstop d rfl]

/-- A run ends in front of a gap. -/
theorem run_gap (p : Char → Bool) (cls : List Char → Class) {cs behind : List Char}
    (hblank : p ' ' = false) (hall : ∀ c ∈ cs, p c = true) (h : Gap behind) :
    run p cls (cs ++ behind) = ⟨cls cs, cs, behind⟩ := by
  refine run_append p cls hall (fun d hd => ?_)
  rcases h with rfl | ⟨more, rfl⟩
  · cases hd
  · cases hd
    exact hblank

/-- Characters of one class are none of another. -/
theorem ne_of_class {p : Char → Bool} {c d : Char} (hc : p c = true) (hd : p d = false) : c ≠ d := by
  rintro rfl
  rw [hc] at hd
  cases hd

/-- A class without blanks. -/
theorem isBlank_of_class {p : Char → Bool} {c : Char} (hc : p c = true)
    (hp : [' ', '\t', '\r', '\n'].any p = false) : isBlank c = false := by
  rw [Bool.eq_false_iff]
  intro hblank
  have hmem : c ∈ [' ', '\t', '\r', '\n'] := by simpa [isBlank, or_assoc] using hblank
  exact List.any_eq_false.mp hp c hmem hc

/-- The digits of a number are cut off as this number. -/
theorem cuts_int {n : Nat} (h : n ≤ maxInt) : Cuts n.repr.toList (.int n) := by
  have hvalue := Lexeme.decimal_repr n
  have hdigits : ∀ c ∈ n.repr.toList, c.isDigit = true := fun c hc => isDigit_of_mem_repr hc
  cases hrepr : n.repr.toList with
  | nil => exact absurd hrepr (toList_repr_ne_nil n)
  | cons c cs =>
      rw [hrepr] at hvalue hdigits
      have hc : c.isDigit = true := hdigits c List.mem_cons_self
      have hcs : ∀ d ∈ cs, d.isDigit = true := fun d hd => hdigits d (List.mem_cons_of_mem _ hd)
      have hblank : isBlank c = false := isBlank_of_class hc (by decide)
      refine ⟨c, cs, rfl, fun behind hgap => ?_⟩
      unfold cut
      rw [if_neg (by simp [hblank]), if_neg (fun hs => ne_of_class hc (by decide) hs.1),
        if_neg (ne_of_class hc (by decide)), if_neg (ne_of_class hc (by decide)), if_pos hc,
        run_gap _ _ (by decide) hcs hgap, number, hvalue, if_pos h]

theorem isDigit_of_isWordStart {c : Char} (h : isWordStart c = true) : c.isDigit = false := by
  rw [Bool.eq_false_iff]
  intro hdigit
  have hle : c.val ≤ '9'.val := of_decide_eq_true (Bool.and_eq_true_iff.mp hdigit).2
  -- letters come behind the digits
  rcases Bool.or_eq_true_iff.mp h with halpha | hline
  · rcases Bool.or_eq_true_iff.mp halpha with hupper | hlower
    · have hge : 'A'.val ≤ c.val := (of_decide_eq_true hupper).1
      exact absurd (UInt32.le_trans hge hle) (by decide)
    · have hge : 'a'.val ≤ c.val := of_decide_eq_true (Bool.and_eq_true_iff.mp hlower).1
      exact absurd (UInt32.le_trans hge hle) (by decide)
  · rw [of_decide_eq_true hline] at hdigit
    exact absurd hdigit (by decide)

/-- A word is cut off as what it spells. -/
theorem cuts_word {name : String} (h : isWord name = true) : Cuts name.toList (.ofWord name) := by
  obtain ⟨c, cs, hname, hc, hcs⟩ := isWord_iff.mp h
  have hblank : isBlank c = false := isBlank_of_class hc (by decide)
  have hdigit := isDigit_of_isWordStart hc
  refine ⟨c, cs, hname, fun behind hgap => ?_⟩
  unfold cut
  rw [if_neg (by simp [hblank]), if_neg (fun hs => ne_of_class hc (by decide) hs.1),
    if_neg (ne_of_class hc (by decide)), if_neg (ne_of_class hc (by decide)),
    if_neg (by simp [hdigit]), if_pos hc, run_gap _ _ (by decide) hcs hgap, ← hname,
    String.ofList_toList]

/-- A literal with doubled quotes reads as its content, and ends with the quote behind it. -/
theorem quoted_doubleQuotes {content behind : List Char} (h : '\n' ∉ content) (hgap : Gap behind) :
    quoted (doubleQuotes content ++ '\'' :: behind) =
      ⟨some content, doubleQuotes content ++ ['\''], behind⟩ := by
  induction content with
  | nil =>
      -- the closing quote is not doubled
      rcases hgap with rfl | ⟨more, rfl⟩ <;> simp [doubleQuotes, quoted]
  | cons c cs ih =>
      have ih := ih (fun hcs => h (List.mem_cons_of_mem _ hcs))
      have hc : c ≠ '\n' := fun hc => h (hc ▸ List.mem_cons_self)
      by_cases hquote : c = '\''
      · subst hquote
        simp [doubleQuotes, quoted, ih, Quoted.grow]
      · simp [doubleQuotes, quoted, hquote, hc, ih, Quoted.grow]

theorem cuts_str {content : String} (h : '\n' ∉ content.toList) :
    Cuts (Token.Kind.str content).source.toList (.str content) := by
  refine ⟨'\'', doubleQuotes content.toList ++ ['\''], by simp [Token.Kind.source], ?_⟩
  intro behind hgap
  have hquoted := quoted_doubleQuotes h hgap
  unfold cut
  rw [if_neg (by decide), if_neg (fun hs => absurd hs.1 (by decide)), if_neg (by decide), if_pos rfl,
    List.append_assoc, List.singleton_append, hquoted]
  simp [literal]

/-- No operator goes on with a blank, so each is cut off alone. -/
theorem cuts_operator (op : Operator) : Cuts op.spelling.toList (.operator op) := by
  cases op <;> refine ⟨_, _, rfl, ?_⟩ <;> rintro _ (rfl | ⟨more, rfl⟩) <;> rfl

theorem cuts_punct (mark : Punct) : Cuts mark.spelling.toList (.punct mark) := by
  cases mark <;> refine ⟨_, _, rfl, ?_⟩ <;> rintro _ (rfl | ⟨more, rfl⟩) <;> rfl

end Lexeme

theorem isWord_spelling (k : Keyword) : isWord k.spelling = true := by
  cases k <;> decide

theorem ofWord_spelling (k : Keyword) : Token.Kind.ofWord k.spelling = .keyword k := by
  cases k <;> rfl

/-- A word that no keyword is spelled like, in any letter case, is an identifier. -/
theorem ofWord_of_ne {name : String} (h : ∀ k ∈ Keyword.all, Keyword.fold name ≠ k.spelling) :
    Token.Kind.ofWord name = .ident name := by
  have hnone : Keyword.ofString? name = none := by
    unfold Keyword.ofString?
    rw [List.find?_eq_none]
    intro k hk
    simpa using (h k hk).symm
  rw [Token.Kind.ofWord, hnone]

/-- **Every written kind is cut off as one token.** -/
theorem Token.Kind.cuts_source {kind : Token.Kind} (h : kind.Writable) :
    Lexeme.Cuts kind.source.toList kind := by
  cases kind with
  | int n =>
      obtain ⟨hpos, hmax⟩ := h
      obtain ⟨m, rfl⟩ := Int.eq_ofNat_of_zero_le hpos
      exact Lexeme.cuts_int (Int.ofNat_le.mp hmax)
  | str content => exact Lexeme.cuts_str h
  | ident name =>
      have hcuts := Lexeme.cuts_word h.1
      rwa [ofWord_of_ne h.2] at hcuts
  | keyword k =>
      have hcuts := Lexeme.cuts_word (isWord_spelling k)
      rwa [ofWord_spelling] at hcuts
  | operator op => exact Lexeme.cuts_operator op
  | punct mark => exact Lexeme.cuts_punct mark
  | eof => exact h.elim

/-! ## The whole text -/

namespace Lexeme

/-- A stretch that is cut off is the first lexeme. -/
theorem split_of_cuts {text behind : List Char} {kind : Token.Kind} (h : Cuts text kind)
    (hgap : Gap behind) : split (text ++ behind) = ⟨.token kind, text⟩ :: split behind := by
  obtain ⟨c, cs, rfl, hcut⟩ := h
  rw [List.cons_append, split, hcut behind hgap]

theorem split_blank (cs : List Char) : split (' ' :: cs) = ⟨.skip, [' ']⟩ :: split cs := by
  rw [split]
  rfl

/-- **The lexemes of written kinds** are tokens of these kinds, with the blanks between them. -/
theorem classes_split_writeKinds {kinds : List Token.Kind} (h : ∀ kind ∈ kinds, kind.Writable) :
    (split (writeKinds kinds).toList).map Lexeme.cls =
      (kinds.map Class.token).intersperse .skip := by
  induction kinds with
  | nil =>
      rw [writeKinds, List.map_nil, String.intercalate_nil, String.toList_empty, split]
      rfl
  | cons kind kinds ih =>
      obtain ⟨hkind, hkinds⟩ := List.forall_mem_cons.mp h
      have hcuts := Token.Kind.cuts_source hkind
      cases kinds with
      | nil =>
          have hsplit := split_of_cuts hcuts (.inl rfl)
          rw [List.append_nil] at hsplit
          rw [writeKinds, List.map_singleton, String.intercalate_singleton, hsplit, split]
          rfl
      | cons next more =>
          have htext : (writeKinds (kind :: next :: more)).toList =
              kind.source.toList ++ ' ' :: (writeKinds (next :: more)).toList := by
            simp [writeKinds, String.intercalate_cons_cons]
          rw [htext, split_of_cuts hcuts (.inr ⟨_, rfl⟩), split_blank, List.map_cons, List.map_cons,
            ih hkinds]
          rfl

/-- The kind of a token. -/
def Class.kind? : Class → Option Token.Kind
  | .token kind => some kind
  | _ => none

/-- The kinds of the tokens of a text do not depend on where they stand. -/
theorem kinds_locate (p : Pos) (ls : List Lexeme) :
    ((locate p ls).filterMap token?).map Token.kind = (ls.map Lexeme.cls).filterMap Class.kind? := by
  induction ls generalizing p with
  | nil => rfl
  | cons l ls ih =>
      obtain ⟨cls, text⟩ := l
      rw [locate, List.map_cons]
      cases cls with
      | skip => exact ih _
      | token kind => exact congrArg (kind :: ·) (ih _)
      | fault fault => exact ih _

/-- A text without faults has no errors. -/
theorem errors_locate {ls : List Lexeme} (h : ∀ fault, .fault fault ∉ ls.map Lexeme.cls) (p : Pos) :
    (locate p ls).filterMap error? = [] := by
  induction ls generalizing p with
  | nil => rfl
  | cons l ls ih =>
      obtain ⟨cls, text⟩ := l
      have ih := ih (fun fault hmem => h fault (List.mem_cons_of_mem _ hmem))
      rw [locate]
      cases cls with
      | skip => exact ih _
      | token kind => exact ih _
      | fault fault => exact absurd List.mem_cons_self (h fault)

theorem filterMap_kind?_intersperse (kinds : List Token.Kind) :
    ((kinds.map Class.token).intersperse .skip).filterMap Class.kind? = kinds := by
  induction kinds with
  | nil => rfl
  | cons kind kinds ih =>
      cases kinds with
      | nil => rfl
      | cons next more => exact congrArg (kind :: ·) ih

theorem fault_notMem_intersperse (kinds : List Token.Kind) (fault : Fault) :
    .fault fault ∉ (kinds.map Class.token).intersperse .skip := by
  induction kinds with
  | nil => exact List.not_mem_nil
  | cons kind kinds ih =>
      cases kinds with
      | nil => simp
      | cons next more =>
          rw [List.map_cons, List.map_cons, List.intersperse_cons_cons]
          simpa using ih

end Lexeme

/-- **Scanning undoes printing.** Kinds that a text can hold, written with blanks between them, are found
    again in the same order, with the end of the stream behind them, and nothing in the text is an
    error. -/
theorem scan_writeKinds (kinds : List Token.Kind) (h : ∀ kind ∈ kinds, kind.Writable) :
    (Scanner.ofSource (writeKinds kinds)).scan.1.toList.map Token.kind = kinds ++ [.eof] ∧
      (Scanner.ofSource (writeKinds kinds)).scan.2.errors = [] := by
  have hclasses := Lexeme.classes_split_writeKinds h
  constructor
  · show ((Lexeme.locate {} (Lexeme.split _)).filterMap Lexeme.token? ++ [_]).map Token.kind = _
    rw [List.map_append, Lexeme.kinds_locate]
    show List.filterMap _ (List.map _ (Lexeme.split (writeKinds kinds).toList)) ++ _ = _
    rw [hclasses, Lexeme.filterMap_kind?_intersperse]
    rfl
  · show [] ++ (Lexeme.locate {} (Lexeme.split (writeKinds kinds).toList)).filterMap Lexeme.error? = []
    rw [List.nil_append]
    refine Lexeme.errors_locate (fun fault hmem => ?_) {}
    rw [hclasses] at hmem
    exact Lexeme.fault_notMem_intersperse kinds fault hmem

/-- The largest number, marks that would join without a blank, and a string that holds quotes, comments
    and characters outside ASCII. -/
def mixedKinds : List Token.Kind :=
  [.ident "_End1", .punct .colon, .operator .eq, .int 9223372036854775807, .operator .slash,
   .operator .slash, .str "'it''s' \x7b//\x7d \x00 é\t", .operator .lt, .operator .gt, .keyword .end, .int 0]

/-- Nothing runs into what stands behind it. -/
theorem scan_writeKinds_mixedKinds :
    (∀ kind ∈ mixedKinds, kind.Writable) ∧
      (Scanner.ofSource (writeKinds mixedKinds)).scan.1.toList.map Token.kind = mixedKinds ++ [.eof] ∧
      (Scanner.ofSource (writeKinds mixedKinds)).scan.2.errors = [] := by
  have hwritable : ∀ kind ∈ mixedKinds, kind.Writable := by decide +kernel
  exact ⟨hwritable, scan_writeKinds mixedKinds hwritable⟩

end TinyPascal
