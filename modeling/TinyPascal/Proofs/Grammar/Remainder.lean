import TinyPascal.Proofs.Compile
import TinyPascal.Proofs.Grammar.Sentences

/-!
# `Proofs.Grammar.Remainder` — what stands behind a program

Reading one program stops at its dot and looks no further. So a list of tokens, or a source text, is
accepted if it **starts** with a sentence; whether it is one as a whole shows only in the tokens that
are left.

## Contents
- **What is left.** `tokens_eq_of_next`, `sentence_iff_of_next`: the tokens in front of what is left are
  a sentence; all of them are one exactly if nothing is left.
- **Whole lists.** `accepted_iff_starts_with_sentence`: acceptance, and what it does not depend on.
- **A text with a remainder.** `accepts_two_programs`.
-/

namespace TinyPascal

open TinyPascal.Grammar

/-! ## What is left -/

/-- What was read is a sentence, and the rest is left. -/
theorem tokens_eq_of_next {s : Stream} {tree : Program} (h : s.next.1 = .ok tree) :
    ∃ pre, s.tokens = pre ++ s.next.2.tokens ∧ Sentence (pre.map Token.kind) := by
  obtain ⟨pre, rest, htokens, hpre⟩ := sentence_of_next h
  obtain ⟨tree', hnext⟩ := next_of_sentence hpre
  have hs : s = ⟨pre ++ rest, s.finish⟩ := by rw [← htokens]
  have hleft : s.next.2.tokens = rest := by
    rw [hs, hnext]
  exact ⟨pre, by rw [hleft, htokens], hpre⟩

/-- A sentence leaves nothing behind, and what leaves nothing behind is a sentence. -/
theorem sentence_iff_of_next {s : Stream} {tree : Program} (h : s.next.1 = .ok tree) :
    Sentence (s.tokens.map Token.kind) ↔ s.next.2.tokens = [] := by
  constructor
  · intro hall
    obtain ⟨tree', hnext⟩ := next_of_sentence hall
    have hwhole := hnext [] s.finish
    rw [List.append_nil] at hwhole
    rw [show s.next = _ from hwhole]
  · intro hleft
    obtain ⟨pre, htokens, hpre⟩ := tokens_eq_of_next h
    rw [hleft, List.append_nil] at htokens
    rw [htokens]
    exact hpre

/-- A sentence ends with a dot. -/
theorem dot_of_sentence {w : List Token} (h : Sentence (w.map Token.kind)) :
    ∃ front dot, w = front ++ [dot] ∧ dot.kind = .punct .dot := by
  obtain ⟨u, v, b, stop, _, _, _, rfl⟩ := spells_program.mp h
  exact ⟨u ++ (v ++ b), ⟨.punct .dot, stop⟩, by simp, rfl⟩

/-! ## Whole lists -/

/-- Tokens with an end behind them, and nowhere else, are read as the stream of these tokens. -/
theorem ofTokens?_closed (ts : List Token) (finish : Span) :
    Program.ofTokens? (ts ++ [⟨.eof, finish⟩]) = some (Stream.mk ts finish).next.1 := by
  have hstream : Stream.ofTokens? (ts ++ [⟨.eof, finish⟩]) = some ⟨ts, finish⟩ :=
    Stream.ofTokens?_toList ⟨ts, finish⟩
  unfold Program.ofTokens?
  rw [hstream]
  rfl

theorem parse_eq_ok {source : String} {tree : Program} :
    parse source = .ok tree ↔ ∃ stream, lex source = .ok stream ∧ stream.next.1 = .ok tree := by
  unfold parse
  rw [Except.bind_eq_ok]
  simp only [Except.mapError_eq_ok]

/-- Tokens are accepted if they start with a sentence. -/
theorem next_ok_iff (s : Stream) :
    (∃ tree, s.next.1 = .ok tree) ↔
      ∃ pre rest, s.tokens = pre ++ rest ∧ Sentence (pre.map Token.kind) := by
  constructor
  · rintro ⟨tree, h⟩
    exact sentence_of_next h
  · rintro ⟨pre, rest, htokens, hpre⟩
    obtain ⟨tree, hnext⟩ := next_of_sentence hpre
    have hs : s = ⟨pre ++ rest, s.finish⟩ := by rw [← htokens]
    exact ⟨tree, by rw [hs, hnext]⟩

/-- **Lists and texts are accepted if they start with a sentence.** The sentence ends with a dot, and the
    tokens behind it are not looked at: any others in their place give the same tree. Together with the
    sentence they are one only if there are none. -/
theorem accepted_iff_starts_with_sentence (ts : List Token) (finish : Span) (source : String) :
    ((∃ tree, Program.ofTokens? (ts ++ [⟨.eof, finish⟩]) = some (.ok tree)) ↔
      ∃ pre rest, ts = pre ++ rest ∧ Sentence (pre.map Token.kind)) ∧
    (∀ pre rest, ts = pre ++ rest → Sentence (pre.map Token.kind) →
      (∃ front dot, pre = front ++ [dot] ∧ dot.kind = .punct .dot) ∧
      (Sentence (ts.map Token.kind) ↔ rest = []) ∧
      ∀ more finish', Program.ofTokens? (pre ++ more ++ [⟨.eof, finish'⟩]) =
        Program.ofTokens? (ts ++ [⟨.eof, finish⟩])) ∧
    ((∃ tree, parse source = .ok tree) ↔
      ∃ stream pre rest, lex source = .ok stream ∧ stream.tokens = pre ++ rest ∧
        Sentence (pre.map Token.kind)) := by
  refine ⟨?_, ?_, ?_⟩
  · rw [ofTokens?_closed]
    simp only [Option.some.injEq]
    exact next_ok_iff ⟨ts, finish⟩
  · rintro pre rest rfl hpre
    obtain ⟨tree, hnext⟩ := next_of_sentence hpre
    have hleft := hnext rest finish
    refine ⟨dot_of_sentence hpre, ?_, fun more finish' => ?_⟩
    · have hiff := sentence_iff_of_next (s := ⟨pre ++ rest, finish⟩) (congrArg Prod.fst hleft)
      rw [hleft] at hiff
      exact hiff
    · rw [ofTokens?_closed, ofTokens?_closed, hnext, hleft]
  · simp only [parse_eq_ok]
    constructor
    · rintro ⟨tree, stream, hlex, hok⟩
      obtain ⟨pre, rest, htokens, hpre⟩ := sentence_of_next hok
      exact ⟨stream, pre, rest, hlex, htokens, hpre⟩
    · rintro ⟨stream, pre, rest, hlex, htokens, hpre⟩
      obtain ⟨tree, hok⟩ := (next_ok_iff stream).mpr ⟨pre, rest, htokens, hpre⟩
      exact ⟨tree, stream, hlex, hok⟩

/-! ## A text with a remainder -/

/-- A program with stray words behind its dot: read as if it were the program alone. -/
theorem accepted_iff_starts_with_sentence_stray :
    Program.ofTokens? (emptyProgram 1 ++ strayTokens ++ [⟨.eof, ⟨25, 25, 1, 26⟩⟩]) =
      Program.ofTokens? (emptyProgram 1 ++ [⟨.eof, ⟨10, 10, 1, 11⟩⟩]) := by
  obtain ⟨_, hsame, _⟩ := accepted_iff_starts_with_sentence (emptyProgram 1) ⟨10, 10, 1, 11⟩ ""
  have hwhole : emptyProgram 1 = emptyProgram 1 ++ [] := (List.append_nil _).symm
  obtain ⟨_, _, hmore⟩ := hsame (emptyProgram 1) [] hwhole (sentence_emptyProgram 1)
  exact hmore strayTokens ⟨25, 25, 1, 26⟩

/-- Two programs, one behind the other. -/
def twice : String :=
  "begin end. begin end."

/-- **Acceptance does not mean that all tokens are one program.** This text has its only end behind its
    last token, and both the list of its tokens and the text itself are accepted; but they are two
    programs. -/
theorem accepts_two_programs :
    ∃ stream tree, lex twice = .ok stream ∧ (∀ t ∈ stream.tokens, t.kind ≠ .eof) ∧
      Program.ofTokens? stream.toList = some (.ok tree) ∧ parse twice = .ok tree ∧
      ¬ Sentence (stream.tokens.map Token.kind) := by
  have hsome : (parse twice).toOption.isSome = true := by decide +kernel
  obtain ⟨tree, htree⟩ := Option.isSome_iff_exists.mp hsome
  have hparse : parse twice = .ok tree := Except.eq_ok_of_toOption htree
  obtain ⟨stream, hlex, hnext⟩ := parse_eq_ok.mp hparse
  -- three tokens are left behind the first dot
  have hstream : (lex twice).toOption.map (fun s =>
      (s.tokens.all (fun t => t.kind ≠ .eof), s.next.2.tokens.length)) = some (true, 3) := by
    decide +kernel
  rw [hlex] at hstream
  obtain ⟨hinside, hleft⟩ := Prod.mk.inj (Option.some.inj hstream)
  refine ⟨stream, tree, hlex, ?_, ?_, hparse, ?_⟩
  · simpa using hinside
  · exact (ofTokens?_closed stream.tokens stream.finish).trans (congrArg some hnext)
  · rw [sentence_iff_of_next hnext]
    intro hnil
    rw [hnil] at hleft
    cases hleft

end TinyPascal
