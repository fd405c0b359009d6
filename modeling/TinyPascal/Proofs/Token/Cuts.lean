import TinyPascal.Proofs.Token.Printing

/-!
# `Proofs.Token.Cuts` — what is cut off, by what it starts with

The first character of a lexeme, with one look at the second, decides how it is cut off. Proofs about
lexemes do not unfold `Lexeme.cut`: they take the cases of `Start`, with one equation for each.

## Contents
- **Starts.** `Start`; `cut_blank`, `cut_slashes`, `cut_brace`, `cut_quote`, `cut_digit`, `cut_letter`.
- **Tokens.** `token_of_cut`: numbers are runs of digits, keywords and identifiers are words, strings stand
  on one line, and all other tokens are operators or punctuation marks. `writable_of_cut`,
  `writable_of_split`: the tokens of a text are kinds that a text can hold.
-/

namespace TinyPascal

namespace Lexeme

/-! ## Starts -/

/-- What a lexeme starts with. -/
inductive Start (c : Char) (cs : List Char) : Prop where
  | blank : isBlank c = true → Start c cs
  | slashes : c = '/' → cs.head? = some '/' → Start c cs
  | brace : c = '\x7b' → Start c cs
  | quote : c = '\'' → Start c cs
  | digit : c.isDigit = true → Start c cs
  | letter : isWordStart c = true → Start c cs
  /-- Anything else is a mark, or starts nothing; a slash is one if no other follows. -/
  | mark : (∀ ds, ¬(c = '/' ∧ ds.head? = some '/') → cut c ds = Lexeme.mark c ds) →
      ¬(c = '/' ∧ cs.head? = some '/') → Start c cs

theorem start (c : Char) (cs : List Char) : Start c cs := by
  by_cases hblank : isBlank c = true
  · exact .blank hblank
  by_cases hslashes : c = '/' ∧ cs.head? = some '/'
  · exact .slashes hslashes.1 hslashes.2
  by_cases hbrace : c = '\x7b'
  · exact .brace hbrace
  by_cases hquote : c = '\''
  · exact .quote hquote
  by_cases hdigit : c.isDigit = true
  · exact .digit hdigit
  by_cases hletter : isWordStart c = true
  · exact .letter hletter
  refine .mark (fun ds hds => ?_) hslashes
  unfold cut
  rw [if_neg hblank, if_neg hds, if_neg hbrace, if_neg hquote, if_neg hdigit, if_neg hletter]

section Cuts

variable {c : Char} {cs : List Char}

theorem cut_blank (h : isBlank c = true) : cut c cs = ⟨.skip, [], cs⟩ := by
  unfold cut
  rw [if_pos h]

theorem cut_slashes (h : cs.head? = some '/') :
    cut '/' cs = run (· != '\n') (fun _ => .skip) cs := by
  unfold cut
  rw [if_neg (by decide), if_pos ⟨rfl, h⟩]

theorem cut_brace : cut '\x7b' cs = comment cs := by
  unfold cut
  rw [if_neg (by decide), if_neg (fun h => absurd h.1 (by decide)), if_pos rfl]

theorem cut_quote :
    cut '\'' cs = ⟨literal (quoted cs).content, (quoted cs).text, (quoted cs).rest⟩ := by
  unfold cut
  rw [if_neg (by decide), if_neg (fun h => absurd h.1 (by decide)), if_neg (by decide), if_pos rfl]

theorem cut_digit (h : c.isDigit = true) :
    cut c cs = run Char.isDigit (fun ds => number (c :: ds)) cs := by
  have hblank : isBlank c = false := isBlank_of_class h (by decide)
  unfold cut
  rw [if_neg (by simp [hblank]), if_neg (fun hs => ne_of_class h (by decide) hs.1),
    if_neg (ne_of_class h (by decide)), if_neg (ne_of_class h (by decide)), if_pos h]

theorem cut_letter (h : isWordStart c = true) :
    cut c cs = run isWordRest (fun ds => .token (.ofWord (String.ofList (c :: ds)))) cs := by
  have hblank : isBlank c = false := isBlank_of_class h (by decide)
  have hdigit := isDigit_of_isWordStart h
  unfold cut
  rw [if_neg (by simp [hblank]), if_neg (fun hs => ne_of_class h (by decide) hs.1),
    if_neg (ne_of_class h (by decide)), if_neg (ne_of_class h (by decide)),
    if_neg (by simp [hdigit]), if_pos h]

end Cuts

/-! ## Tokens -/

theorem single_category {c : Char} {kind : Token.Kind} (h : single c = .token kind) :
    kind.category = .operator ∨ kind.category = .punctuation := by
  unfold single mark? at h
  split at h
  · next mark hmark =>
      cases h
      split at hmark
      all_goals cases hmark
      all_goals simp [Token.Kind.category]
  · cases h

theorem mark_category {c : Char} {cs : List Char} {kind : Token.Kind}
    (h : (mark c cs).cls = .token kind) :
    kind.category = .operator ∨ kind.category = .punctuation := by
  unfold mark at h
  split at h
  · exact single_category h
  · split at h
    · cases h
      exact .inl rfl
    · exact single_category h

theorem comment_ne_token (cs : List Char) (kind : Token.Kind) : (comment cs).cls ≠ .token kind := by
  unfold comment
  split <;> simp

/-- The content of a literal stands on one line. -/
theorem newline_notMem_content {cs content : List Char} (h : (quoted cs).content = some content) :
    '\n' ∉ content := by
  fun_induction quoted cs generalizing content with
  | case1 => cases h
  | case2 cs ih =>
      obtain ⟨inner, hinner, rfl⟩ := Option.map_eq_some_iff.mp h
      simpa using ih hinner
  | case3 =>
      cases h
      exact List.not_mem_nil
  | case4 => cases h
  | case5 c cs _ _ hline ih =>
      obtain ⟨inner, hinner, rfl⟩ := Option.map_eq_some_iff.mp h
      intro hmem
      rcases List.mem_cons.mp hmem with heq | hmem
      · exact hline heq.symm
      · exact ih hinner hmem

/-- **What is cut off as a token.** -/
theorem token_of_cut {c : Char} {cs : List Char} {kind : Token.Kind}
    (h : (cut c cs).cls = .token kind) :
    ((∀ d ∈ c :: (cut c cs).more, d.isDigit = true) ∧ decimal (c :: (cut c cs).more) ≤ maxInt ∧
        kind = .int (decimal (c :: (cut c cs).more))) ∨
      (isWord (String.ofList (c :: (cut c cs).more)) = true ∧
        kind = .ofWord (String.ofList (c :: (cut c cs).more))) ∨
      (∃ content, '\n' ∉ content ∧ kind = .str (String.ofList content)) ∨
      kind.category = .operator ∨ kind.category = .punctuation := by
  cases start c cs with
  | blank hblank =>
      rw [cut_blank hblank] at h
      cases h
  | slashes hc hhead =>
      subst hc
      rw [cut_slashes hhead] at h
      cases h
  | brace hc =>
      subst hc
      rw [cut_brace] at h
      exact absurd h (comment_ne_token cs kind)
  | quote hc =>
      subst hc
      rw [cut_quote] at h
      cases hcontent : (quoted cs).content with
      | none =>
          rw [hcontent] at h
          cases h
      | some content =>
          rw [hcontent] at h
          cases h
          exact .inr (.inr (.inl ⟨content, newline_notMem_content hcontent, rfl⟩))
  | digit hdigit =>
      rw [cut_digit hdigit] at h ⊢
      have hmore : ∀ d ∈ cs.takeWhile Char.isDigit, d.isDigit = true :=
        List.all_eq_true.mp List.all_takeWhile
      refine .inl ⟨List.forall_mem_cons.mpr ⟨hdigit, hmore⟩, ?_⟩
      unfold run number at h
      simp only at h
      split at h
      · next hmax =>
          cases h
          exact ⟨hmax, rfl⟩
      · cases h
  | letter hletter =>
      rw [cut_letter hletter] at h ⊢
      have hmore : ∀ d ∈ cs.takeWhile isWordRest, isWordRest d = true :=
        List.all_eq_true.mp List.all_takeWhile
      refine .inr (.inl ⟨isWord_iff.mpr ⟨c, _, String.toList_ofList, hletter, hmore⟩, ?_⟩)
      cases h
      rfl
  | mark hcut hslashes =>
      rw [hcut cs hslashes] at h
      exact .inr (.inr (.inr (mark_category h)))

end Lexeme

/-- A word that is an identifier is that identifier, and no keyword in any letter case. -/
theorem ident_of_ofWord {word name : String} (h : Token.Kind.ofWord word = .ident name) :
    name = word ∧ ∀ k : Keyword, Keyword.fold word ≠ k.spelling := by
  unfold Token.Kind.ofWord at h
  split at h
  · cases h
  · next hnone =>
      cases h
      refine ⟨rfl, fun k hk => ?_⟩
      unfold Keyword.ofString? at hnone
      have hne := List.find?_eq_none.mp hnone k (Keyword.mem_all k)
      exact hne (by simpa using hk.symm)

namespace Lexeme

/-- **What is cut off as a token can be written.** -/
theorem writable_of_cut {c : Char} {cs : List Char} {kind : Token.Kind}
    (h : (cut c cs).cls = .token kind) : kind.Writable := by
  rcases token_of_cut h with ⟨_, hmax, rfl⟩ | ⟨hword, hkind⟩ | ⟨content, hline, rfl⟩ | hmark
  · exact ⟨Int.natCast_nonneg _, Int.ofNat_le.mpr hmax⟩
  · cases kind with
    | keyword k => trivial
    | ident name =>
        obtain ⟨rfl, hfree⟩ := ident_of_ofWord hkind.symm
        exact ⟨hword, fun k _ => hfree k⟩
    | _ =>
        unfold Token.Kind.ofWord at hkind
        split at hkind <;> cases hkind
  · show '\n' ∉ (String.ofList content).toList
    rwa [String.toList_ofList]
  · cases kind with
    | operator op => trivial
    | punct mark => trivial
    | _ => simp [Token.Kind.category] at hmark

/-- **The tokens of a text are kinds that a text can hold.** -/
theorem writable_of_split {cs : List Char} {kind : Token.Kind}
    (h : Class.token kind ∈ (split cs).map Lexeme.cls) : kind.Writable := by
  fun_induction split cs with
  | case1 => cases h
  | case2 c cs ih =>
      rcases List.mem_cons.mp h with hfirst | hrest
      · exact writable_of_cut hfirst.symm
      · exact ih hrest

end Lexeme

end TinyPascal
