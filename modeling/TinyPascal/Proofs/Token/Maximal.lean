import Mathlib.Data.List.Induction
import Mathlib.Data.Nat.Digits.Defs
import TinyPascal.Proofs.Token.Locality

/-!
# `Proofs.Token.Maximal` — tokens are maximal lexemes

A token is what its own text says, whatever stands around it: scanned alone, the text gives the same
token and nothing else. And it is as long as it can be. If a longer stretch from the same place were one
token, it would start like the text behind the token, and by `cut_local` the token would be cut off in
front of it again.

## Contents
- **Lexemes in place.** `exists_cut`: where a lexeme stands and what it was cut off from; `mem_locate`:
  lexemes stand between the ends of the text.
- **Alone.** `ScansAs`; `scansAs_of_cut`, `not_scansAs_longer`.
- **Numbers.** `digitsValue`: the value of digits by their places. `split_digits`: what a run of digits
  gives where a lexeme starts.
- **Scanning.** `tokens_maximal`.
-/

namespace TinyPascal

/-! ## Lexemes in place -/

theorem Pos.offset_advance (p : Pos) (c : Char) : (p.advance c).offset = p.offset + c.utf8Size := by
  unfold Pos.advance
  split <;> rfl

theorem Pos.offset_after (p : Pos) (text : List Char) :
    (p.after text).offset = p.offset + byteCount text := by
  induction text generalizing p with
  | nil => rfl
  | cons c cs ih => rw [Pos.after_cons, ih, Pos.offset_advance, byteCount, Nat.add_assoc]

namespace Lexeme

/-- Where a lexeme of a text stands, and what it was cut off from. -/
theorem exists_cut {cs : List Char} {p : Pos} {l : Lexeme × Span} (h : l ∈ locate p (split cs)) :
    ∃ before c more rest, cs = before ++ (c :: more ++ rest) ∧
      cut c (more ++ rest) = ⟨l.1.cls, more, rest⟩ ∧
      l.2 = (p.after before).spanTo (p.after (before ++ (c :: more))) := by
  fun_induction split cs generalizing p with
  | case1 => cases h
  | case2 c cs ih =>
      rw [locate] at h
      rcases List.mem_cons.mp h with rfl | hrest
      · refine ⟨[], c, (cut c cs).more, (cut c cs).rest, ?_, ?_, rfl⟩
        · rw [List.nil_append, List.cons_append, cut_tiles]
        · rw [cut_tiles]
      · obtain ⟨before, d, more, rest, hcs, hcut, hspan⟩ := ih hrest
        refine ⟨(c :: (cut c cs).more) ++ before, d, more, rest, ?_, hcut, ?_⟩
        · rw [List.append_assoc, ← hcs, List.cons_append, cut_tiles]
        · rw [hspan, List.append_assoc, Pos.after_append p (c :: _), Pos.after_append p (c :: _)]

/-- Lexemes stand behind the place where they start, and in front of the place where they end. -/
theorem mem_locate {p : Pos} {ls : List Lexeme} {l : Lexeme × Span} (h : l ∈ locate p ls) :
    p.offset ≤ l.2.start ∧ l.2.stop ≤ p.offset + byteCount (ls.map Lexeme.text).flatten := by
  induction ls generalizing p with
  | nil => cases h
  | cons first ls ih =>
      rw [locate] at h
      rw [List.map_cons, List.flatten_cons, byteCount_append]
      rcases List.mem_cons.mp h with rfl | hrest
      · have hstop := Pos.offset_after p first.text
        simp only [Pos.spanTo]
        omega
      · have hbounds := ih hrest
        rw [Pos.offset_after] at hbounds
        omega

/-! ## Alone -/

theorem split_of_cut {c : Char} {more rest behind : List Char} {kind : Token.Kind}
    (h : cut c (more ++ rest) = ⟨.token kind, more, rest⟩) (halike : Alike rest behind) :
    split (c :: more ++ behind) = ⟨.token kind, c :: more⟩ :: split behind := by
  have hopen : (cut c (more ++ rest)).cls ≠ .fault .openComment := by
    rw [h]
    simp
  have hlike : Alike (cut c (more ++ rest)).rest behind := by
    rw [h]
    exact halike
  have hcut := cut_local hopen hlike
  rw [h] at hcut
  rw [List.cons_append, split, hcut]

end Lexeme

/-- The text, scanned alone, is one token of the given kind from its first to its last character, and
    holds no error. -/
def ScansAs (text : List Char) (kind : Token.Kind) : Prop :=
  (Scanner.ofSource (String.ofList text)).scan.1 =
      ⟨[⟨kind, Span.counted [] text⟩], Span.counted text []⟩ ∧
    (Scanner.ofSource (String.ofList text)).scan.2.errors = []

section Alone

variable {c : Char} {more rest : List Char} {kind : Token.Kind}

/-- **A token is what its text says**: the text alone gives the same token. -/
theorem scansAs_of_cut (h : Lexeme.cut c (more ++ rest) = ⟨.token kind, more, rest⟩) :
    ScansAs (c :: more) kind := by
  have hsplit := Lexeme.split_of_cut h Lexeme.alike_nil
  rw [List.append_nil, Lexeme.split] at hsplit
  have hupcoming : (Scanner.ofSource (String.ofList (c :: more))).upcoming =
      [(⟨.token kind, c :: more⟩, Span.counted [] (c :: more))] := by
    show Lexeme.locate (Pos.counted []) (Lexeme.split (String.ofList (c :: more)).toList) = _
    rw [String.toList_ofList, hsplit, Lexeme.locate, Pos.after_counted]
    rfl
  have hfinish := Scanner.finish_ofSource (String.ofList (c :: more))
  rw [String.toList_ofList] at hfinish
  constructor
  · show (⟨(Scanner.ofSource (String.ofList (c :: more))).upcoming.filterMap Lexeme.token?,
      (Scanner.ofSource (String.ofList (c :: more))).finish⟩ : Stream) = _
    rw [hupcoming, hfinish]
    rfl
  · rw [Scanner.errors_ofSource, hupcoming]
    rfl

/-- **A token is as long as it can be**: in a longer stretch of the text it is cut off first. -/
theorem not_scansAs_longer (h : Lexeme.cut c (more ++ rest) = ⟨.token kind, more, rest⟩)
    {ext behind : List Char} (hrest : rest = ext ++ behind) (hne : ext ≠ []) (kind' : Token.Kind) :
    ¬ ScansAs (c :: more ++ ext) kind' := by
  rintro ⟨htokens, _⟩
  have hsplit := Lexeme.split_of_cut h (Lexeme.alike_part hrest hne)
  -- the first token of the longer stretch ends where the shorter one ends
  have hfirst : (Scanner.ofSource (String.ofList (c :: more ++ ext))).scan.1.tokens.head? =
      some ⟨kind, Span.counted [] (c :: more)⟩ := by
    show ((Lexeme.locate (Pos.counted []) (Lexeme.split
      (String.ofList (c :: more ++ ext)).toList)).filterMap Lexeme.token?).head? = _
    rw [String.toList_ofList, hsplit, Lexeme.locate, Pos.after_counted]
    rfl
  rw [htokens] at hfirst
  have hspan : Span.counted [] (c :: more ++ ext) = Span.counted [] (c :: more) := by
    injection hfirst with hfirst
    exact congrArg Token.span hfirst
  have hstop := congrArg Span.stop hspan
  have hpos := byteCount_pos hne
  simp only [Span.counted, Pos.spanTo, Pos.counted, List.nil_append, byteCount_append] at hstop
  omega

end Alone

/-! ## Numbers -/

/-- The value of decimal digits, each counted by its place from the right. -/
def digitsValue (digits : List Char) : Nat :=
  Nat.ofDigits 10 (digits.reverse.map (fun d => d.toNat - '0'.toNat))

/-- Reading digits from the left gives the value that they have by their places. -/
theorem Lexeme.decimal_eq_digitsValue (digits : List Char) : decimal digits = digitsValue digits := by
  induction digits using List.reverseRecOn with
  | nil => rfl
  | append_singleton digits d ih =>
      have hdecimal : decimal (digits ++ [d]) = 10 * decimal digits + (d.toNat - '0'.toNat) := by
        simp [decimal]
      have hvalue : digitsValue (digits ++ [d]) = (d.toNat - '0'.toNat) + 10 * digitsValue digits := by
        simp [digitsValue, Nat.ofDigits_cons]
      rw [hdecimal, hvalue, ih, Nat.add_comm]

namespace Lexeme

/-- A lexeme starts behind `before`: the text up to there is made up of whole lexemes. -/
def StartsBehind (source before : List Char) : Prop :=
  ∃ ls ms, split source = ls ++ ms ∧ (ls.map Lexeme.text).flatten = before

/-- The lexemes behind some first ones are those of the text that is left. -/
theorem split_tail {cs : List Char} {ls ms : List Lexeme} (h : split cs = ls ++ ms) :
    ms = split (ms.map Lexeme.text).flatten := by
  induction ls generalizing cs with
  | nil =>
      rw [List.nil_append] at h
      rw [← h, flatten_split]
  | cons l ls ih =>
      cases cs with
      | nil =>
          rw [split] at h
          cases h
      | cons c cs =>
          rw [split] at h
          exact ih (List.cons.inj h).2

/-- A run of digits that no digit follows is one lexeme. -/
theorem split_digits {digits behind : List Char} (hne : digits ≠ [])
    (hdigits : ∀ d ∈ digits, d.isDigit = true)
    (hbehind : ∀ d, behind.head? = some d → d.isDigit = false) :
    split (digits ++ behind) = ⟨number digits, digits⟩ :: split behind := by
  cases digits with
  | nil => exact absurd rfl hne
  | cons d ds =>
      obtain ⟨hd, hds⟩ := List.forall_mem_cons.mp hdigits
      rw [List.cons_append, split, cut_digit hd, run_append _ _ hds hbehind]

end Lexeme

/-- The two spans have a byte in common. -/
def Span.meets (a b : Span) : Bool :=
  a.start < b.stop && b.start < a.stop

/-- What stands in front of a span, or behind it, does not meet it. -/
theorem filter_meets_eq_nil {α : Type} {f : Lexeme × Span → Option α} {place : α → Span} {s : Span}
    {ls : List (Lexeme × Span)} (hplace : ∀ l x, f l = some x → place x = l.2)
    (h : ∀ l ∈ ls, l.2.stop ≤ s.start ∨ s.stop ≤ l.2.start) :
    (ls.filterMap f).filter (fun x => (place x).meets s) = [] := by
  rw [List.filter_eq_nil_iff]
  intro x hx
  obtain ⟨l, hl, hf⟩ := List.mem_filterMap.mp hx
  rw [hplace l x hf]
  have hapart := h l hl
  simp only [Span.meets, Bool.and_eq_true, decide_eq_true_eq, not_and]
  omega

/-- In a row of lexemes, only the lexeme at a span meets it. -/
theorem filter_meets_eq {α : Type} {f : Lexeme × Span → Option α} {place : α → Span}
    {front back : List (Lexeme × Span)} {l : Lexeme × Span}
    (hplace : ∀ m x, f m = some x → place x = m.2) (hpos : l.2.start < l.2.stop)
    (hfront : ∀ m ∈ front, m.2.stop ≤ l.2.start) (hback : ∀ m ∈ back, l.2.stop ≤ m.2.start) :
    ((front ++ l :: back).filterMap f).filter (fun x => (place x).meets l.2) = (f l).toList := by
  have hsplit : front ++ l :: back = front ++ ([l] ++ back) := rfl
  rw [hsplit, List.filterMap_append, List.filterMap_append, List.filter_append, List.filter_append,
    filter_meets_eq_nil hplace (fun m hm => .inl (hfront m hm)),
    filter_meets_eq_nil hplace (fun m hm => .inr (hback m hm)), List.nil_append, List.append_nil]
  cases hf : f l with
  | none => simp [hf]
  | some x => simp [hf, hplace l x hf, Span.meets, hpos]

theorem Lexeme.eq_of_token? {l : Lexeme × Span} {t : Token} (h : token? l = some t) :
    l.1.cls = .token t.kind ∧ t.span = l.2 := by
  obtain ⟨⟨cls, text⟩, span⟩ := l
  cases cls with
  | token kind => cases h; exact ⟨rfl, rfl⟩
  | skip => cases h
  | fault fault => cases h

theorem Lexeme.span_of_error? {l : Lexeme × Span} {e : LexError} (h : error? l = some e) :
    e.span = l.2 := by
  obtain ⟨⟨cls, text⟩, span⟩ := l
  cases cls with
  | fault fault => cases h; rfl
  | skip => cases h
  | token kind => cases h

/-- A run of digits where a lexeme starts is a lexeme, and the others stand in front of it or behind
    it. -/
theorem Scanner.upcoming_digits {source : String} {before digits behind : List Char}
    (hsource : source.toList = before ++ (digits ++ behind))
    (hstart : Lexeme.StartsBehind source.toList before) (hne : digits ≠ [])
    (hdigits : ∀ d ∈ digits, d.isDigit = true)
    (hbehind : ∀ d, behind.head? = some d → d.isDigit = false) :
    ∃ front back, (Scanner.ofSource source).upcoming =
        front ++ (⟨Lexeme.number digits, digits⟩, Span.counted before digits) :: back ∧
      (∀ l ∈ front, l.2.stop ≤ (Span.counted before digits).start) ∧
      ∀ l ∈ back, (Span.counted before digits).stop ≤ l.2.start := by
  obtain ⟨ls, ms, hsplit, hbefore⟩ := hstart
  have hrest : (ms.map Lexeme.text).flatten = digits ++ behind := by
    have hflat := Lexeme.flatten_split source.toList
    rw [hsplit, List.map_append, List.flatten_append, hbefore, hsource] at hflat
    exact List.append_cancel_left hflat
  have hms := Lexeme.split_tail hsplit
  rw [hrest, Lexeme.split_digits hne hdigits hbehind] at hms
  refine ⟨Lexeme.locate (Pos.counted []) ls, Lexeme.locate (Pos.counted (before ++ digits))
    (Lexeme.split behind), ?_, fun l hl => ?_, fun l hl => ?_⟩
  · show Lexeme.locate (Pos.counted []) (Lexeme.split source.toList) = _
    rw [hsplit, hms, Lexeme.locate_append, hbefore, Pos.after_counted, List.nil_append, Lexeme.locate,
      Pos.after_counted]
    rfl
  · have hstop := (Lexeme.mem_locate hl).2
    rw [hbefore] at hstop
    have hzero : (Pos.counted []).offset = 0 := rfl
    rw [hzero, Nat.zero_add] at hstop
    exact hstop
  · exact (Lexeme.mem_locate hl).1

/-! ## Scanning -/

/-- **A maximal lexeme.** The token `t`, at the stretch `text` in front of `behind`: the stretch alone is
    this token, and no longer one is a token. An identifier is its text and no keyword in any letter case,
    and a number has the value of its digits. -/
structure Token.Maximal (t : Token) (text behind : List Char) : Prop where
  alone : ScansAs text t.kind
  longest : ∀ more rest kind, behind = more ++ rest → more ≠ [] → ¬ ScansAs (text ++ more) kind
  ident : ∀ name, t.kind = .ident name →
    name.toList = text ∧ ∀ k : Keyword, Keyword.fold name ≠ k.spelling
  int : ∀ n, t.kind = .int n → (∀ d ∈ text, d.isDigit = true) ∧ n = digitsValue text

theorem Token.maximal_of_cut {t : Token} {c : Char} {more rest : List Char}
    (h : Lexeme.cut c (more ++ rest) = ⟨.token t.kind, more, rest⟩) : t.Maximal (c :: more) rest := by
  have hkind := Lexeme.token_of_cut (congrArg Lexeme.Cut.cls h)
  rw [h] at hkind
  dsimp only at hkind
  refine ⟨scansAs_of_cut h, fun ext behind kind hrest hne => not_scansAs_longer h hrest hne kind,
    fun name hname => ?_, fun n hn => ?_⟩
  · rw [hname] at hkind
    rcases hkind with ⟨_, _, hint⟩ | ⟨_, hword⟩ | hother
    · cases hint
    · obtain ⟨rfl, hfree⟩ := ident_of_ofWord hword.symm
      exact ⟨String.toList_ofList, hfree⟩
    · simp [Token.Kind.category] at hother
  · rw [hn] at hkind
    rcases hkind with ⟨hdigits, _, hint⟩ | ⟨_, hword⟩ | hother
    · refine ⟨hdigits, ?_⟩
      rw [← Lexeme.decimal_eq_digitsValue]
      exact Token.Kind.int.inj hint
    · unfold Token.Kind.ofWord at hword
      split at hword <;> cases hword
    · simp [Token.Kind.category] at hother

/-- **Tokens are maximal lexemes.** Every token stands at a stretch of the text of which it is the maximal
    lexeme. Where a lexeme starts with a digit, its whole run of digits gives one number, if the value is
    at most the largest that 64 bits hold with a sign, and else one error; nothing else meets the run. -/
theorem tokens_maximal (source : String) :
    (∀ t ∈ (Scanner.ofSource source).scan.1.tokens, ∃ before text behind,
      source.toList = before ++ (text ++ behind) ∧ t.span = Span.counted before text ∧
        t.Maximal text behind) ∧
    ∀ before digits behind, source.toList = before ++ (digits ++ behind) →
      Lexeme.StartsBehind source.toList before → digits ≠ [] → (∀ d ∈ digits, d.isDigit = true) →
      (∀ d, behind.head? = some d → d.isDigit = false) →
      (Scanner.ofSource source).scan.1.tokens.filter
          (fun t => t.span.meets (Span.counted before digits)) =
        (if digitsValue digits ≤ 9223372036854775807 then
          [⟨.int (digitsValue digits), Span.counted before digits⟩] else []) ∧
      (Scanner.ofSource source).scan.2.errors.filter
          (fun e => e.span.meets (Span.counted before digits)) =
        (if digitsValue digits ≤ 9223372036854775807 then []
          else [⟨"Integer literal '" ++ String.ofList digits ++ "' out of range",
            Span.counted before digits⟩]) := by
  constructor
  · intro t ht
    obtain ⟨l, hl, htoken⟩ := List.mem_filterMap.mp ht
    obtain ⟨before, c, more, rest, hsource, hcut, hspan⟩ :=
      Lexeme.exists_cut (p := Pos.counted []) hl
    obtain ⟨hcls, hplace⟩ := Lexeme.eq_of_token? htoken
    rw [hcls] at hcut
    refine ⟨before, c :: more, rest, hsource, ?_, Token.maximal_of_cut hcut⟩
    rw [hplace, hspan, Pos.after_counted, Pos.after_counted]
    rfl
  · intro before digits behind hsource hstart hne hdigits hbehind
    obtain ⟨front, back, hupcoming, hfront, hback⟩ :=
      Scanner.upcoming_digits hsource hstart hne hdigits hbehind
    have hpos : (Span.counted before digits).start < (Span.counted before digits).stop :=
      Span.counted_nonempty hne
    have htokens := filter_meets_eq (l := (⟨Lexeme.number digits, digits⟩, Span.counted before digits))
      (fun _ _ h => (Lexeme.eq_of_token? h).2) hpos hfront hback
    have herrors := filter_meets_eq (l := (⟨Lexeme.number digits, digits⟩, Span.counted before digits))
      (fun _ _ => Lexeme.span_of_error?) hpos hfront hback
    rw [← hupcoming] at htokens herrors
    have hmax : 9223372036854775807 = Lexeme.maxInt := rfl
    rw [Scanner.errors_ofSource, ← Lexeme.decimal_eq_digitsValue, hmax]
    refine ⟨htokens.trans ?_, herrors.trans ?_⟩
    all_goals
      unfold Lexeme.number
      split
      · rfl
      · rfl

/-- A number with leading zeros, the largest number, and a run that is one too large, next to a word that
    holds digits. -/
def digitRuns : String := "007+9223372036854775807 x9 9223372036854775808."

/-- The run that is too large starts a lexeme and gives an error of its own. -/
theorem tokens_maximal_digitRuns :
    (Scanner.ofSource digitRuns).scan.2.errors.filter
        (fun e => e.span.meets ⟨27, 46, 1, 28⟩) =
      [⟨"Integer literal '9223372036854775808' out of range", ⟨27, 46, 1, 28⟩⟩] := by
  have hstart : Lexeme.StartsBehind digitRuns.toList "007+9223372036854775807 x9 ".toList :=
    ⟨(Lexeme.split digitRuns.toList).take 6, (Lexeme.split digitRuns.toList).drop 6,
      (List.take_append_drop 6 _).symm, by decide +kernel⟩
  have hdigits : "9223372036854775808".toList.all Char.isDigit = true := by decide +kernel
  have hbehind : ∀ d, ".".toList.head? = some d → d.isDigit = false := by
    rw [show ".".toList.head? = some '.' by decide +kernel]
    rintro d ⟨⟩
    rfl
  have hrun := (tokens_maximal digitRuns).2 "007+9223372036854775807 x9 ".toList
    "9223372036854775808".toList ".".toList (by decide +kernel) hstart (by decide +kernel)
    (List.all_eq_true.mp hdigits) hbehind
  exact hrun.2

end TinyPascal
