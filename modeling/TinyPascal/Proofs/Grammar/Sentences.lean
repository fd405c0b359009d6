import TinyPascal.Proofs.Grammar.Programs
import TinyPascal.Tree.Read

/-!
# `Proofs.Grammar.Sentences` — streams are read one sentence at a time

A stream is a list of tokens from where the reading stands, so a statement about every stream is one
about every list of tokens and every place in it.

## Contents
- **One program.** `next_of_sentence`, `sentence_of_next`: what is read is a sentence, and a sentence is
  read whatever stands behind it.
- **Ahead of the reader.** `Stream.Ahead s pre rest`: a sentence `pre` is next in the stream.
- **Lists without a stream.** `EndsInLastColumn`: the lists of tokens that have no place for their end.
- **Several programs.** `take_sentences`.
- **The grammar is recognised.** `next_recognises_sentences`.
-/

namespace TinyPascal

open TinyPascal.Grammar TinyPascal.Parser

/-! ## One program -/

/-- A sentence is read as one tree, whatever stands behind it and wherever the stream ends, and the
    reading goes on behind it. -/
theorem next_of_sentence {w : List Token} (h : Sentence (w.map Token.kind)) :
    ∃ tree, ∀ rest finish, (Stream.mk (w ++ rest) finish).next = (.ok tree, ⟨rest, finish⟩) := by
  obtain ⟨tree, hread⟩ := complete_program w.length (Nat.le_refl _) h
  refine ⟨tree, fun rest finish => ?_⟩
  obtain ⟨hshort, hok⟩ := hread rest (fun _ _ => rfl)
  simp only [Stream.next, hok]

/-- What is read is a sentence. -/
theorem sentence_of_next {s : Stream} {tree : Program} (h : s.next.1 = .ok tree) :
    ∃ pre rest, s.tokens = pre ++ rest ∧ Sentence (pre.map Token.kind) := by
  unfold Stream.next at h
  split at h
  · next value rest hshort hok =>
      obtain ⟨pre, hpre, hspell⟩ := sound_program s.tokens.length (Nat.le_refl _) ⟨hshort, hok⟩
      exact ⟨pre, rest, hpre, hspell⟩
  · cases h

/-! ## Ahead of the reader -/

/-- The next tokens of the stream are the sentence `pre`, and `rest` stands behind it. -/
def Stream.Ahead (s : Stream) (pre rest : List Token) : Prop :=
  s.toList = pre ++ rest ∧ Sentence (pre.map Token.kind)

namespace Stream

variable {s : Stream} {pre rest : List Token}

/-- A sentence ahead does not reach the end-of-stream token. -/
theorem ahead_iff :
    s.Ahead pre rest ↔
      ∃ r, s.tokens = pre ++ r ∧ rest = r ++ [s.last] ∧ Sentence (pre.map Token.kind) := by
  unfold Ahead toList
  constructor
  · rintro ⟨htokens, hpre⟩
    rcases List.eq_nil_or_concat rest with rfl | ⟨r, last, rfl⟩
    · -- the end-of-stream token would be the last of the sentence
      have hmem : Token.Kind.eof ∈ pre.map Token.kind := by
        rw [List.append_nil] at htokens
        rw [← htokens, List.map_append]
        exact List.mem_append_right _ (List.mem_singleton_self _)
      exact absurd hmem hpre.ne_eof
    · rw [List.concat_eq_append, ← List.append_assoc] at htokens
      obtain ⟨hfront, hlast⟩ := List.append_inj' htokens rfl
      cases hlast
      exact ⟨r, hfront, List.concat_eq_append, hpre⟩
  · rintro ⟨r, htokens, rfl, hpre⟩
    exact ⟨by rw [htokens, List.append_assoc], hpre⟩

/-- A sentence ahead is read, and the reading goes on behind it. -/
theorem Ahead.next (h : s.Ahead pre rest) :
    ∃ tree, s.next.1 = .ok tree ∧ s.next.2.toList = rest := by
  obtain ⟨r, htokens, rfl, hpre⟩ := ahead_iff.mp h
  obtain ⟨tree, hnext⟩ := next_of_sentence hpre
  have hs : s = ⟨pre ++ r, s.finish⟩ := by rw [← htokens]
  rw [hs, hnext]
  exact ⟨tree, rfl, rfl⟩

theorem Ahead.unique {pre' rest' : List Token} (h : s.Ahead pre rest) (h' : s.Ahead pre' rest') :
    pre = pre' := by
  obtain ⟨_, _, hrest⟩ := h.next
  obtain ⟨_, _, hrest'⟩ := h'.next
  -- reading does not depend on which sentence is thought to be ahead
  have htokens : pre ++ rest = pre' ++ rest' := by rw [← h.1, ← h'.1]
  rw [← hrest, ← hrest'] at htokens
  exact List.append_cancel_right htokens

/-- A stream of tokens holds them all; only the end-of-stream token may stand for itself. -/
theorem ofTokens?_cases {ts : List Token} (h : ofTokens? ts = some s) :
    s.toList = ts ∨ s.tokens = ts := by
  unfold ofTokens? at h
  split at h
  · next hlast =>
      cases h
      exact .inr (List.getLast?_eq_none_iff.mp hlast).symm
  · next t hlast =>
      split at h
      · next heof =>
          cases h
          obtain ⟨front, rfl⟩ := List.getLast?_eq_some_iff.mp hlast
          obtain ⟨kind, span⟩ := t
          cases heof
          exact .inl (by simp [toList, last])
      · obtain ⟨finish, _, rfl⟩ := Option.map_eq_some_iff.mp h
        exact .inr rfl

/-- Ahead in the stream of a list of tokens are the sentences that the list starts with, whether or not
    it is written with its end. -/
theorem ahead_ofTokens? {ts : List Token} (h : ofTokens? ts = some s) :
    (∃ rest, s.Ahead pre rest) ↔ (∃ rest, ts = pre ++ rest) ∧ Sentence (pre.map Token.kind) := by
  rcases ofTokens?_cases h with rfl | rfl
  · exact exists_and_right
  · constructor
    · rintro ⟨rest, hahead⟩
      obtain ⟨r, htokens, _, hpre⟩ := ahead_iff.mp hahead
      exact ⟨⟨r, htokens⟩, hpre⟩
    · rintro ⟨⟨r, htokens⟩, hpre⟩
      exact ⟨_, ahead_iff.mpr ⟨r, htokens, rfl, hpre⟩⟩

end Stream

/-! ## Lists without a stream -/

/-- The last token is no end-of-stream token, and there is no column behind the one in which it starts. -/
def EndsInLastColumn (ts : List Token) : Prop :=
  ∃ t, ts.getLast? = some t ∧ t.kind ≠ .eof ∧ Span.maxColumn ≤ t.span.column

/-- These are the lists that cannot be completed to a stream. -/
theorem Stream.ofTokens?_eq_none {ts : List Token} :
    Stream.ofTokens? ts = none ↔ EndsInLastColumn ts := by
  unfold EndsInLastColumn Stream.ofTokens?
  cases hlast : ts.getLast? with
  | none => simp
  | some t =>
      by_cases heof : t.kind = .eof
      · simp [heof]
      · simp [heof, Span.behind?]

/-- So these are the lists from which no program is read, and of which none is refused either. -/
theorem Program.ofTokens?_eq_none {ts : List Token} :
    Program.ofTokens? ts = none ↔ EndsInLastColumn ts := by
  unfold Program.ofTokens?
  rw [Option.map_eq_none_iff]
  exact Stream.ofTokens?_eq_none

/-! ## Several programs -/

/-- Alone, a sentence gives the same tree as in front of other tokens. -/
theorem next_alone {w : List Token} (h : Sentence (w.map Token.kind)) (alone : Span) :
    ∃ tree, (Stream.mk w alone).next.1 = .ok tree ∧
      ∀ rest finish, (Stream.mk (w ++ rest) finish).next = (.ok tree, ⟨rest, finish⟩) := by
  obtain ⟨tree, hnext⟩ := next_of_sentence h
  have hw := hnext [] alone
  rw [List.append_nil] at hw
  exact ⟨tree, by rw [hw], hnext⟩

/-- Sentences in a row are read one after the other, each as if it stood alone. -/
theorem take_sentences {sentences : List (List Token)}
    (h : ∀ w ∈ sentences, Sentence (w.map Token.kind)) (rest : List Token) (finish alone : Span) :
    Stream.take sentences.length ⟨sentences.flatten ++ rest, finish⟩ =
      sentences.map (fun w => (Stream.mk w alone).next.1) := by
  induction sentences with
  | nil => rfl
  | cons w more ih =>
      obtain ⟨tree, halone, hnext⟩ := next_alone (h w List.mem_cons_self) alone
      have hmore := ih (fun w' hw' => h w' (List.mem_cons_of_mem _ hw'))
      rw [List.length_cons, Stream.take, List.flatten_cons, List.append_assoc, hnext, List.map_cons,
        halone, hmore]

/-! ## The grammar is recognised -/

/-- **Programs are read exactly as the grammar says.** From every place of every list of tokens:
    reading succeeds if and only if a sentence is ahead; there is then only one, and the reading goes on
    behind it. A list that is given without its end has the same sentences ahead; it has no stream exactly
    if its last token leaves no column for the end. Sentences in a row are read one after the other, each
    as the tree that it gives alone. -/
theorem next_recognises_sentences (s : Stream) :
    ((∃ tree, s.next.1 = .ok tree) ↔ ∃ pre rest, s.Ahead pre rest) ∧
    (∀ pre rest pre' rest', s.Ahead pre rest → s.Ahead pre' rest' → pre = pre') ∧
    (∀ pre rest, s.Ahead pre rest → s.next.2.toList = rest) ∧
    (∀ ts pre, Stream.ofTokens? ts = some s →
      ((∃ rest, s.Ahead pre rest) ↔ (∃ rest, ts = pre ++ rest) ∧ Sentence (pre.map Token.kind))) ∧
    (∀ ts, Stream.ofTokens? ts = none ↔ EndsInLastColumn ts) ∧
    (∀ (sentences : List (List Token)) rest alone, (∀ w ∈ sentences, Sentence (w.map Token.kind)) →
      s.tokens = sentences.flatten ++ rest →
      s.take sentences.length = sentences.map (fun w => (Stream.mk w alone).next.1) ∧
      ∀ w ∈ sentences, ∃ tree, (Stream.mk w alone).next.1 = .ok tree) := by
  refine ⟨⟨?_, ?_⟩, ?_, ?_, ?_, fun _ => Stream.ofTokens?_eq_none, ?_⟩
  · rintro ⟨tree, h⟩
    obtain ⟨pre, rest, htokens, hpre⟩ := sentence_of_next h
    exact ⟨pre, _, Stream.ahead_iff.mpr ⟨rest, htokens, rfl, hpre⟩⟩
  · rintro ⟨pre, rest, h⟩
    obtain ⟨tree, hok, _⟩ := h.next
    exact ⟨tree, hok⟩
  · intro pre rest pre' rest' h h'
    exact h.unique h'
  · intro pre rest h
    obtain ⟨_, _, hrest⟩ := h.next
    exact hrest
  · intro ts pre h
    exact Stream.ahead_ofTokens? h
  · intro sentences rest alone h htokens
    obtain ⟨tokens, finish⟩ := s
    cases htokens
    refine ⟨take_sentences h rest finish alone, fun w hw => ?_⟩
    obtain ⟨tree, halone, _⟩ := next_alone (h w hw) alone
    exact ⟨tree, halone⟩

/-- The shortest sentence, from the given column of the first line on. -/
def emptyProgram (column : Nat) : List Token :=
  [⟨.keyword .begin, ⟨0, 5, 1, column⟩⟩, ⟨.keyword .end, ⟨6, 9, 1, column + 6⟩⟩,
    ⟨.punct .dot, ⟨9, 10, 1, column + 9⟩⟩]

theorem sentence_emptyProgram (column : Nat) : Sentence ((emptyProgram column).map Token.kind) := by
  have hblock : Spells (.nt .block) ((emptyProgram column).take 2) := by
    refine spells_nt.mpr (spells_tok_cons.mpr ⟨_, _, rfl, rfl, spells_stmtsTail.mpr ?_⟩)
    exact .last (u := []) (spells_opt.mpr (.inl rfl))
  exact spells_program.mpr ⟨[], [], _, _, spells_star.mpr (.inl rfl), spells_star.mpr (.inl rfl),
    hblock, rfl⟩

/-- Tokens that belong to no program: an end-of-stream token in the middle, and more behind it. -/
def strayTokens : List Token :=
  [⟨.eof, ⟨21, 21, 1, 22⟩⟩, ⟨.keyword .end, ⟨22, 25, 1, 23⟩⟩]

/-- Two programs in one line, with stray tokens behind them. -/
def twoPrograms : Stream :=
  ⟨emptyProgram 1 ++ (emptyProgram 12 ++ strayTokens), ⟨25, 25, 1, 26⟩⟩

theorem next_recognises_twoPrograms :
    (∃ first second, twoPrograms.take 2 = [.ok first, .ok second]) ∧
      twoPrograms.next.2.toList = emptyProgram 12 ++ strayTokens ++ [⟨.eof, ⟨25, 25, 1, 26⟩⟩] := by
  obtain ⟨_, _, hbehind, _, _, hrow⟩ := next_recognises_sentences twoPrograms
  have hsentences : ∀ w ∈ [emptyProgram 1, emptyProgram 12], Sentence (w.map Token.kind) := by
    intro w hw
    simp only [List.mem_cons, List.not_mem_nil, or_false] at hw
    rcases hw with rfl | rfl
    · exact sentence_emptyProgram 1
    · exact sentence_emptyProgram 12
  obtain ⟨htake, halone⟩ := hrow [emptyProgram 1, emptyProgram 12] strayTokens {} hsentences rfl
  obtain ⟨first, hfirst⟩ := halone (emptyProgram 1) (by simp)
  obtain ⟨second, hsecond⟩ := halone (emptyProgram 12) (by simp)
  rw [List.map_cons, List.map_cons, List.map_nil, hfirst, hsecond] at htake
  refine ⟨⟨first, second, htake⟩, ?_⟩
  exact hbehind (emptyProgram 1) _ ⟨rfl, sentence_emptyProgram 1⟩

end TinyPascal
