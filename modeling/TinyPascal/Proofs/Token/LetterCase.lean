import TinyPascal.Compile
import TinyPascal.Proofs.Token.Maximal

/-!
# `Proofs.Token.LetterCase` — the letter case of keywords

A keyword may be written in any mix of capital and small letters. Rewriting keywords of a text in another
letter case changes no lexeme: a keyword stays a word of the same keyword, and a lexeme in front of it sees
a letter where a letter was, which it does not tell apart (`cut_local`). So **scanning gives the same tokens
and errors at the same places**, and so does everything that is built on it.

## Contents
- **Letters.** `eq_or_letters`: what two characters with the same small letter have in common.
- **Lexemes.** `Recases`; `cut_recased` for one lexeme, `split_recased` for a text.
- **Characters in keywords.** `RecasesKeywords`; `exists_recased` cuts the other text where the lexemes of
  the first one end.
- **Scanning.** `keyword_case_irrelevant`.
-/

namespace TinyPascal

/-! ## Letters -/

section Letters

variable {c d : Char}

theorem isUpper_iff : c.isUpper = true ↔ 65 ≤ c.val.toNat ∧ c.val.toNat ≤ 90 := by
  unfold Char.isUpper
  simp [UInt32.le_iff_toNat_le]

theorem isLower_iff : c.isLower = true ↔ 97 ≤ c.val.toNat ∧ c.val.toNat ≤ 122 := by
  unfold Char.isLower
  simp [UInt32.le_iff_toNat_le]

theorem toLower_of_not_isUpper (h : ¬ c.isUpper = true) : c.toLower = c := by
  unfold Char.toLower
  rw [dif_neg (fun hrange => h (decide_eq_true hrange))]

/-- The small letter of a capital is a small letter. -/
theorem isLower_toLower (h : c.isUpper = true) : c.toLower.isLower = true := by
  have hval : c.toLower.val = c.val + 32 := by
    unfold Char.toLower
    rw [dif_pos (of_decide_eq_true h)]
    rfl
  obtain ⟨hge, hle⟩ := isUpper_iff.mp h
  have hdistance : (32 : UInt32).toNat = 32 := rfl
  rw [isLower_iff, hval, UInt32.toNat_add, hdistance]
  omega

theorem isAlpha_toLower (c : Char) : c.toLower.isAlpha = c.isAlpha := by
  by_cases hupper : c.isUpper = true
  · unfold Char.isAlpha
    rw [isLower_toLower hupper, hupper, Bool.or_true, Bool.true_or]
  · rw [toLower_of_not_isUpper hupper]

/-- Characters with the same small letter are the same, or letters. -/
theorem eq_or_letters (h : c.toLower = d.toLower) :
    c = d ∨ (c.isAlpha = true ∧ d.isAlpha = true) := by
  have hsame : c.isAlpha = d.isAlpha := by rw [← isAlpha_toLower c, h, isAlpha_toLower d]
  by_cases halpha : c.isAlpha = true
  · exact .inr ⟨halpha, hsame ▸ halpha⟩
  · left
    have hc : ¬ c.isUpper = true := fun hupper => halpha (Bool.or_eq_true_iff.mpr (.inl hupper))
    rw [hsame] at halpha
    have hd : ¬ d.isUpper = true := fun hupper => halpha (Bool.or_eq_true_iff.mpr (.inl hupper))
    rwa [toLower_of_not_isUpper hc, toLower_of_not_isUpper hd] at h

/-- A class that has all letters or none does not depend on letter case. -/
theorem class_of_toLower {p : Char → Bool} (hletter : Lexeme.LettersAlike p)
    (h : c.toLower = d.toLower) : p c = p d := by
  rcases eq_or_letters h with rfl | ⟨hc, hd⟩
  · rfl
  · exact hletter c d hc hd

/-- Letters are one byte long and end no line. -/
theorem Pos.advance_letter (p : Pos) (h : c.isAlpha = true) :
    p.advance c = ⟨p.offset + 1, p.line, p.column + 1⟩ := by
  have hline : c ≠ '\n' := Lexeme.ne_of_class h (by decide)
  have hbound : c.val.toNat ≤ 122 := by
    rcases Bool.or_eq_true_iff.mp h with hupper | hlower
    · exact Nat.le_trans (isUpper_iff.mp hupper).2 (by decide)
    · exact (isLower_iff.mp hlower).2
  have hsize : c.utf8Size = 1 := by
    rw [Char.utf8Size_eq_one_iff, UInt32.le_iff_toNat_le]
    exact Nat.le_trans hbound (by decide)
  rw [Pos.advance, if_neg hline, hsize]

theorem Pos.advance_of_toLower (p : Pos) (h : c.toLower = d.toLower) : p.advance c = p.advance d := by
  rcases eq_or_letters h with rfl | ⟨hc, hd⟩
  · rfl
  · rw [p.advance_letter hc, p.advance_letter hd]

/-- Letter case moves nothing. -/
theorem Pos.after_of_folded (p : Pos) {a b : List Char} (h : a.map Char.toLower = b.map Char.toLower) :
    p.after a = p.after b := by
  induction a generalizing p b with
  | nil =>
      rw [List.map_nil, eq_comm, List.map_eq_nil_iff] at h
      rw [h]
  | cons c a ih =>
      obtain ⟨d, b, rfl, hd, hb⟩ := List.map_eq_cons_iff.mp h.symm
      rw [Pos.after_cons, Pos.after_cons, p.advance_of_toLower hd, ih _ hb.symm]

end Letters

/-! ## Lexemes -/

/-- The reserved word does not depend on letter case. -/
theorem ofWord_of_folded {a b : List Char} {k : Keyword}
    (h : a.map Char.toLower = b.map Char.toLower)
    (hk : Token.Kind.ofWord (String.ofList a) = .keyword k) :
    Token.Kind.ofWord (String.ofList b) = .keyword k := by
  have hfold : Keyword.fold (String.ofList b) = Keyword.fold (String.ofList a) := by
    unfold Keyword.fold
    rw [String.toList_ofList, String.toList_ofList, h]
  have hfound : Keyword.ofString? (String.ofList b) = Keyword.ofString? (String.ofList a) := by
    unfold Keyword.ofString?
    rw [hfold]
  unfold Token.Kind.ofWord at hk ⊢
  rw [hfound]
  cases hword : Keyword.ofString? (String.ofList a) with
  | some word =>
      rw [hword] at hk
      exact hk
  | none =>
      rw [hword] at hk
      cases hk

namespace Lexeme

/-- The lexeme is a keyword. -/
def IsKeyword (l : Lexeme) : Prop :=
  ∃ k, l.cls = .token (.keyword k)

/-- The lexeme `m` is `l`, but a keyword may be in another letter case. -/
structure Recases (l m : Lexeme) : Prop where
  cls : m.cls = l.cls
  folded : l.text.map Char.toLower = m.text.map Char.toLower
  kept : ¬ l.IsKeyword → m.text = l.text

section Cuts

variable {c c' : Char} {cs more' behind : List Char}

/-- Texts that differ in letter case start alike. -/
theorem alike_of_folded {rest : List Char} (h : rest.map Char.toLower = behind.map Char.toLower) :
    Alike rest behind := by
  intro d hd
  cases behind with
  | nil => cases hd
  | cons b behind =>
      cases hd
      obtain ⟨e, rest, rfl, he, _⟩ := List.map_eq_cons_iff.mp h
      rcases eq_or_letters he with rfl | ⟨halpha, hd⟩
      · exact .inr (.inl rfl)
      · exact .inr (.inr ⟨hd, e, rfl, halpha⟩)

/-- A keyword in another letter case is the same keyword. -/
theorem cut_keyword {k : Keyword} (hcls : (cut c cs).cls = .token (.keyword k))
    (hfold : (c :: (cut c cs).more).map Char.toLower = (c' :: more').map Char.toLower)
    (h : Alike (cut c cs).rest behind) :
    cut c' (more' ++ behind) = ⟨.token (.keyword k), more', behind⟩ := by
  have hword : isWord (String.ofList (c :: (cut c cs).more)) = true ∧
      Token.Kind.keyword k = .ofWord (String.ofList (c :: (cut c cs).more)) := by
    rcases token_of_cut hcls with ⟨_, _, hint⟩ | hword | ⟨_, _, hstr⟩ | hmark
    · cases hint
    · exact hword
    · cases hstr
    · simp [Token.Kind.category] at hmark
  have hstart : isWordStart c = true := by
    obtain ⟨d, ds, htext, hd, _⟩ := isWord_iff.mp hword.1
    rw [String.toList_ofList] at htext
    rwa [(List.cons.inj htext).1]
  obtain ⟨hfirst, hmore⟩ := List.cons.inj hfold
  have hstart' : isWordStart c' = true := by
    rw [← class_of_toLower isWordStart_letters hfirst]
    exact hstart
  rw [cut_letter hstart] at hmore h
  have hall : ∀ d ∈ more', isWordRest d = true := by
    intro d hd
    obtain ⟨e, he, hlower⟩ := List.mem_map.mp (hmore ▸ List.mem_map_of_mem hd)
    rw [← class_of_toLower isWordRest_letters hlower]
    exact List.all_eq_true.mp List.all_takeWhile e he
  have hstop : ∀ d, behind.head? = some d → isWordRest d = false := by
    refine h.next stop_of_dropWhile (by decide) (fun d e hd he hrest => ?_)
    rw [isWordRest_letters d e hd he, hrest]
  rw [cut_letter hstart', run_append _ _ hall hstop, ofWord_of_folded hfold hword.2.symm]

/-- **One lexeme**: in another letter case it is cut off as before. -/
theorem cut_recased {cls : Class}
    (h : Recases ⟨(cut c cs).cls, c :: (cut c cs).more⟩ ⟨cls, c' :: more'⟩)
    (hfold : (cut c cs).rest.map Char.toLower = behind.map Char.toLower) :
    cut c' (more' ++ behind) = ⟨cls, more', behind⟩ := by
  obtain ⟨hcls, htext, hkept⟩ := h
  obtain rfl : cls = (cut c cs).cls := hcls
  by_cases hkeyword : IsKeyword ⟨(cut c cs).cls, c :: (cut c cs).more⟩
  · obtain ⟨k, hk⟩ := hkeyword
    have hk : (cut c cs).cls = .token (.keyword k) := hk
    rw [hk]
    exact cut_keyword hk htext (alike_of_folded hfold)
  · obtain ⟨rfl, rfl⟩ : c' = c ∧ more' = (cut c cs).more := List.cons.inj (hkept hkeyword)
    by_cases hopen : (cut c' cs).cls = .fault .openComment
    · -- the comment reaches to the end of both texts
      have hrest := rest_of_openComment hopen
      rw [hrest, List.map_nil, eq_comm, List.map_eq_nil_iff] at hfold
      rw [hfold, ← hrest, cut_tiles]
    · exact cut_local hopen (alike_of_folded hfold)

end Cuts

theorem folded_texts {ls ms : List Lexeme} (h : List.Forall₂ Recases ls ms) :
    (ls.map Lexeme.text).flatten.map Char.toLower = (ms.map Lexeme.text).flatten.map Char.toLower := by
  induction h with
  | nil => rfl
  | cons hl _ ih =>
      rw [List.map_cons, List.map_cons, List.flatten_cons, List.flatten_cons, List.map_append,
        List.map_append, hl.folded, ih]

/-- **A whole text**: lexemes in another letter case are the lexemes of their text. -/
theorem split_recased {cs : List Char} {ms : List Lexeme} (h : List.Forall₂ Recases (split cs) ms) :
    split (ms.map Lexeme.text).flatten = ms := by
  fun_induction split cs generalizing ms with
  | case1 =>
      cases h
      rw [List.map_nil, List.flatten_nil, split]
  | case2 c cs ih =>
      obtain _ | ⟨hfirst, hrest⟩ := h
      rename_i m ms
      obtain ⟨cls, text⟩ := m
      obtain ⟨c', more', rfl, _, _⟩ := List.map_eq_cons_iff.mp hfirst.folded.symm
      have hfold := folded_texts hrest
      rw [flatten_split] at hfold
      have hcut := cut_recased hfirst hfold
      rw [List.map_cons, List.flatten_cons, List.cons_append, split, hcut, ih hrest]

theorem token?_of_cls {l m : Lexeme} {span : Span} (h : m.cls = l.cls) :
    token? (m, span) = token? (l, span) := by
  obtain ⟨cls, text⟩ := l
  obtain ⟨cls', text'⟩ := m
  obtain rfl : cls' = cls := h
  cases cls' <;> rfl

theorem error?_of_cls {l m : Lexeme} {span : Span} (h : m.cls = l.cls) :
    error? (m, span) = error? (l, span) := by
  obtain ⟨cls, text⟩ := l
  obtain ⟨cls', text'⟩ := m
  obtain rfl : cls' = cls := h
  cases cls' <;> rfl

/-- What is read off located lexemes by their classes does not depend on letter case. -/
theorem filterMap_locate_recased {α : Type} {f : Lexeme × Span → Option α}
    (hf : ∀ l m span, m.cls = l.cls → f (m, span) = f (l, span)) {ls ms : List Lexeme}
    (h : List.Forall₂ Recases ls ms) (p : Pos) :
    (locate p ms).filterMap f = (locate p ls).filterMap f := by
  induction h generalizing p with
  | nil => rfl
  | @cons l m ls ms hfirst _ ih =>
      rw [locate, locate, ← p.after_of_folded hfirst.folded, List.filterMap_cons, List.filterMap_cons,
        hf l m _ hfirst.cls, ih]

/-! ## Characters in keywords -/

/-- A keyword holds the byte at `offset`. -/
def KeywordAt (ls : List (Lexeme × Span)) (offset : Nat) : Prop :=
  ∃ l ∈ ls, l.1.IsKeyword ∧ l.2.start ≤ offset ∧ offset < l.2.stop

theorem byteCount_take_lt {a : List Char} {i : Nat} (h : i < a.length) :
    byteCount (a.take i) < byteCount a := by
  have hsplit := byteCount_append (a.take i) (a.drop i)
  have hpos : 0 < byteCount (a.drop i) := by
    apply byteCount_pos
    rw [ne_eq, List.drop_eq_nil_iff]
    omega
  rw [List.take_append_drop] at hsplit
  omega

/-- Keywords behind the first lexeme hold no byte of it. -/
theorem not_keywordAt_first {p : Pos} {l : Lexeme} {ls : List Lexeme} {offset : Nat}
    (hl : ¬ l.IsKeyword) (hoffset : offset < p.offset + byteCount l.text) :
    ¬ KeywordAt (locate p (l :: ls)) offset := by
  rintro ⟨m, hm, hkeyword, hstart, _⟩
  rw [locate] at hm
  rcases List.mem_cons.mp hm with rfl | hm
  · exact hl hkeyword
  · have hbehind := (mem_locate hm).1
    rw [Pos.offset_after] at hbehind
    omega

/-- The first lexeme holds no byte behind it. -/
theorem keywordAt_behind {p : Pos} {l : Lexeme} {ls : List Lexeme} {offset : Nat}
    (hoffset : p.offset + byteCount l.text ≤ offset) (h : KeywordAt (locate p (l :: ls)) offset) :
    KeywordAt (locate (p.after l.text) ls) offset := by
  obtain ⟨m, hm, hkeyword, hstart, hstop⟩ := h
  rw [locate] at hm
  rcases List.mem_cons.mp hm with rfl | hm
  · have hend := Pos.offset_after p l.text
    simp only [Pos.spanTo] at hstop
    omega
  · exact ⟨m, hm, hkeyword, hstart, hstop⟩

/-- **The other text has lexemes of the same kinds.** It is cut where the lexemes of the first one end. -/
theorem exists_recased {ls : List Lexeme} {p : Pos} {cs' : List Char}
    (hfold : (ls.map Lexeme.text).flatten.map Char.toLower = cs'.map Char.toLower)
    (hkept : ∀ i, ¬ KeywordAt (locate p ls)
        (p.offset + byteCount ((ls.map Lexeme.text).flatten.take i)) →
      cs'[i]? = (ls.map Lexeme.text).flatten[i]?) :
    ∃ ms, List.Forall₂ Recases ls ms ∧ (ms.map Lexeme.text).flatten = cs' := by
  induction ls generalizing p cs' with
  | nil =>
      rw [List.map_nil, List.flatten_nil, List.map_nil, eq_comm, List.map_eq_nil_iff] at hfold
      exact ⟨[], .nil, hfold.symm⟩
  | cons l ls ih =>
      rw [List.map_cons, List.flatten_cons] at hfold hkept
      have hfirst : l.text.map Char.toLower = (cs'.take l.text.length).map Char.toLower := by
        rw [List.map_take, ← hfold, List.map_append, List.take_left' (by simp)]
      have hrest : (ls.map Lexeme.text).flatten.map Char.toLower =
          (cs'.drop l.text.length).map Char.toLower := by
        rw [List.map_drop, ← hfold, List.map_append, List.drop_left' (by simp)]
      have hkeptFirst : ¬ l.IsKeyword → cs'.take l.text.length = l.text := by
        intro hl
        apply List.ext_getElem?
        intro i
        by_cases hi : i < l.text.length
        · have hoffset := byteCount_take_lt hi
          rw [List.getElem?_take_of_lt hi, hkept i, List.getElem?_append_left hi]
          rw [List.take_append_of_le_length (Nat.le_of_lt hi)]
          exact not_keywordAt_first hl (by omega)
        · rw [List.getElem?_eq_none (by simp; omega), List.getElem?_eq_none (by omega)]
      have hkeptRest : ∀ i, ¬ KeywordAt (locate (p.after l.text) ls)
          ((p.after l.text).offset + byteCount ((ls.map Lexeme.text).flatten.take i)) →
          (cs'.drop l.text.length)[i]? = (ls.map Lexeme.text).flatten[i]? := by
        intro i hi
        rw [List.getElem?_drop, hkept, List.getElem?_append_right (by omega), Nat.add_sub_cancel_left]
        intro hkeyword
        rw [List.take_length_add_append, byteCount_append, ← Nat.add_assoc] at hkeyword
        apply hi
        rw [Pos.offset_after]
        exact keywordAt_behind (by omega) hkeyword
      obtain ⟨ms, hms, htext⟩ := ih hrest hkeptRest
      refine ⟨⟨l.cls, cs'.take l.text.length⟩ :: ms, .cons ⟨rfl, hfirst, hkeptFirst⟩ hms, ?_⟩
      rw [List.map_cons, List.flatten_cons, htext, List.take_append_drop]

end Lexeme

/-- The character number `i` of the text, counted from 0, lies inside a keyword token. -/
def InKeyword (source : String) (i : Nat) : Prop :=
  ∃ t ∈ (Scanner.ofSource source).scan.1.tokens, t.kind.category = .keyword ∧
    t.span.start ≤ byteCount (source.toList.take i) ∧ byteCount (source.toList.take i) < t.span.stop

instance (source : String) (i : Nat) : Decidable (InKeyword source i) :=
  inferInstanceAs (Decidable (∃ t ∈ (Scanner.ofSource source).scan.1.tokens,
    t.kind.category = .keyword ∧ t.span.start ≤ byteCount (source.toList.take i) ∧
      byteCount (source.toList.take i) < t.span.stop))

/-- The second text is the first one with the case of some letters changed, all of them in keyword
    tokens. -/
structure RecasesKeywords (source source' : String) : Prop where
  folded : source.toList.map Char.toLower = source'.toList.map Char.toLower
  kept : ∀ i < source.toList.length, ¬ InKeyword source i → source'.toList[i]? = source.toList[i]?

/-- The keyword tokens of a text are its keywords. -/
theorem InKeyword.keywordAt {source : String} {i : Nat} (h : InKeyword source i) :
    Lexeme.KeywordAt (Scanner.ofSource source).upcoming (byteCount (source.toList.take i)) := by
  obtain ⟨t, ht, hkeyword, hstart, hstop⟩ := h
  obtain ⟨l, hl, htoken⟩ := List.mem_filterMap.mp ht
  obtain ⟨hcls, hspan⟩ := Lexeme.eq_of_token? htoken
  refine ⟨l, hl, ?_, hspan ▸ hstart, hspan ▸ hstop⟩
  cases hkind : t.kind with
  | keyword k => exact ⟨k, hkind ▸ hcls⟩
  | _ =>
      rw [hkind] at hkeyword
      cases hkeyword

/-! ## Scanning -/

section Scanning

variable {source source' : String}

/-- Characters outside keywords are kept, and there are no others behind the end. -/
theorem RecasesKeywords.getElem? (h : RecasesKeywords source source') {i : Nat}
    (hi : ¬ InKeyword source i) : source'.toList[i]? = source.toList[i]? := by
  by_cases hlength : i < source.toList.length
  · exact h.kept i hlength hi
  · have hsame := congrArg List.length h.folded
    rw [List.length_map, List.length_map] at hsame
    rw [List.getElem?_eq_none (by omega), List.getElem?_eq_none (by omega)]

/-- The lexemes of a text in which keywords are in another letter case. -/
theorem RecasesKeywords.split (h : RecasesKeywords source source') :
    List.Forall₂ Lexeme.Recases (Lexeme.split source.toList) (Lexeme.split source'.toList) := by
  have htext := Lexeme.flatten_split source.toList
  have hrecased : ∃ ms, List.Forall₂ Lexeme.Recases (Lexeme.split source.toList) ms ∧
      (ms.map Lexeme.text).flatten = source'.toList := by
    apply Lexeme.exists_recased (p := {})
    · rw [htext]
      exact h.folded
    · intro i hi
      rw [htext, Nat.zero_add] at hi
      rw [htext]
      exact h.getElem? (fun hkeyword => hi (InKeyword.keywordAt hkeyword))
  obtain ⟨ms, hms, hsource'⟩ := hrecased
  rw [← hsource', Lexeme.split_recased hms]
  exact hms

theorem RecasesKeywords.after_eq (h : RecasesKeywords source source') :
    (Scanner.ofSource source').pos.after (Scanner.ofSource source').rest =
      (Scanner.ofSource source).pos.after (Scanner.ofSource source).rest :=
  Pos.after_of_folded {} h.folded.symm

/-- Letter case in keywords changes no token, and no place of one. -/
theorem RecasesKeywords.stream (h : RecasesKeywords source source') :
    (Scanner.ofSource source').stream = (Scanner.ofSource source).stream := by
  have htokens : (Scanner.ofSource source').upcoming.filterMap Lexeme.token? =
      (Scanner.ofSource source).upcoming.filterMap Lexeme.token? :=
    Lexeme.filterMap_locate_recased (fun _ _ _ => Lexeme.token?_of_cls) h.split {}
  unfold Scanner.stream Scanner.finish
  rw [htokens, h.after_eq]

/-- Letter case in keywords changes no error. -/
theorem RecasesKeywords.skipToEnd (h : RecasesKeywords source source') :
    (Scanner.ofSource source').skipToEnd = (Scanner.ofSource source).skipToEnd := by
  have herrors : (Scanner.ofSource source').upcoming.filterMap Lexeme.error? =
      (Scanner.ofSource source).upcoming.filterMap Lexeme.error? :=
    Lexeme.filterMap_locate_recased (fun _ _ _ => Lexeme.error?_of_cls) h.split {}
  unfold Scanner.skipToEnd
  rw [herrors, h.after_eq]
  rfl

end Scanning

/-- **The letter case of keywords is irrelevant.** If a text is changed in nothing but the case of letters
    that lie in keyword tokens, the scanner gives the same tokens, with their values and spans, and the same
    errors; and the tokens, the tree, the check and the code of the text are the same, or the same error. -/
theorem keyword_case_irrelevant (source source' : String) (h : RecasesKeywords source source') :
    (Scanner.ofSource source').scan.1 = (Scanner.ofSource source).scan.1 ∧
      (Scanner.ofSource source').scan.2.errors = (Scanner.ofSource source).scan.2.errors ∧
      lex source' = lex source ∧ parse source' = parse source ∧ check source' = check source ∧
      compile source' = compile source := by
  have hlex : lex source' = lex source := by
    have hsource : Stream.ofSource source' = Stream.ofSource source := by
      unfold Stream.ofSource
      simp only [h.stream, h.skipToEnd]
    unfold lex
    rw [hsource]
  have hparse : parse source' = parse source := by
    unfold parse
    rw [hlex]
  have hcheck : check source' = check source := by
    unfold check
    rw [hparse]
  have hcompile : compile source' = compile source := by
    unfold compile
    rw [hcheck]
  exact ⟨h.stream, congrArg Scanner.errors h.skipToEnd, hlex, hparse, hcheck, hcompile⟩

/-- Keywords next to each other's look-alikes: an identifier that starts like one, a string and a comment
    that hold one. -/
def shouting : String := "BEGIN If Ending=1THEN writeln('IF')\x7bIF\x7dEND."

/-- The same text, with its keywords in small letters or in mixed ones. -/
def whispering : String := "begin iF Ending=1then WriteLn('IF')\x7bIF\x7deND."

/-- Nothing but keywords was changed. -/
theorem keyword_case_irrelevant_whispering :
    shouting ≠ whispering ∧ RecasesKeywords shouting whispering ∧
      (Scanner.ofSource whispering).scan.1 = (Scanner.ofSource shouting).scan.1 ∧
      compile whispering = compile shouting := by
  have hrecases : RecasesKeywords shouting whispering := ⟨by decide +kernel, by decide +kernel⟩
  obtain ⟨htokens, _, _, _, _, hcode⟩ := keyword_case_irrelevant shouting whispering hrecases
  exact ⟨by decide +kernel, hrecases, htokens, hcode⟩

end TinyPascal
