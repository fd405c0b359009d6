import TinyPascal.Proofs.Grammar.Remainder
import TinyPascal.Proofs.Grammar.ViablePrefix

/-!
# `Proofs.Grammar.ReadPrefix` — how far a list of tokens is read

Reading a program stops at its dot, or at the token that does not fit. What is behind that token has no
influence: **two lists that are the same up to where the reading of one stops give the same answer**, tree
or error, with all places. The reading does not go past the first end-of-stream token, so nothing behind
one matters, with one exception: a list whose last token stands in the last column has no place for its
end and is not read at all.

## Contents
- **Lists.** `exists_append_of_agree`: lists that are the same up to a place.
- **Streams.** `Stream.StopsAt s k`: the reading stops at the `k`-th token. `Stream.ReadsUpTo s k`: and it
  depends on nothing behind it; `exists_readsUpTo`.
- **Ends.** `endsInLastColumn_append`: what stands behind an end-of-stream token decides whether a list
  has a place for its end.
- **Answers.** `answer_depends_on_prefix`, `appended_token_changes_answer`.
-/

namespace TinyPascal

open TinyPascal.Grammar TinyPascal.Parser

/-! ## Lists -/

/-- A list that is the same as another up to a place starts with the same items. -/
theorem exists_append_of_agree {α : Type} {a b pre more : List α} {t : α} (ha : a = pre ++ t :: more)
    (h : ∀ i ≤ pre.length, b[i]? = a[i]?) : ∃ more', b = pre ++ t :: more' := by
  have htake : b.take (pre.length + 1) = a.take (pre.length + 1) := by
    apply List.ext_getElem?
    intro i
    by_cases hi : i < pre.length + 1
    · rw [List.getElem?_take_of_lt hi, List.getElem?_take_of_lt hi, h i (by omega)]
    · rw [List.getElem?_take_eq_none (by omega), List.getElem?_take_eq_none (by omega)]
  have hfront : a.take (pre.length + 1) = pre ++ [t] := by
    rw [ha, List.append_cons]
    exact List.take_left' (by simp)
  refine ⟨b.drop (pre.length + 1), ?_⟩
  calc b = b.take (pre.length + 1) ++ b.drop (pre.length + 1) := (List.take_append_drop _ b).symm
    _ = pre ++ t :: b.drop (pre.length + 1) := by rw [htake, hfront, ← List.append_cons]

/-- The first end-of-stream token stands behind the tokens of other kinds. -/
theorem le_findIdx_eof {front : List Token} (h : Token.Kind.eof ∉ front.map Token.kind)
    (rest : List Token) :
    front.length ≤ (front ++ rest).findIdx (fun t => t.kind = .eof) := by
  induction front with
  | nil => exact Nat.zero_le _
  | cons t front ih =>
      rw [List.map_cons, List.mem_cons, not_or] at h
      have hkind : (decide (t.kind = .eof)) = false := decide_eq_false (Ne.symm h.1)
      rw [List.cons_append, List.findIdx_cons, hkind]
      exact Nat.succ_le_succ (ih h.2)

/-! ## Streams -/

namespace Stream

variable {s : Stream}

/-- The reading of a program stops at the `k`-th token: at the dot that it takes, or at the token that
    its error reports. It goes on behind the dot, or at that token. -/
def StopsAt (s : Stream) (k : Nat) : Prop :=
  match s.next.1 with
  | .ok _ =>
    s.toList[k]?.map Token.kind = some (.punct .dot) ∧ s.next.2.toList = s.toList.drop (k + 1)
  | .error e =>
    (∃ t, s.toList[k]? = some t ∧ e.span = t.span ∧ e.found = t.kind.text) ∧
      s.next.2.toList = s.toList.drop k

/-- **The reading depends on the tokens up to the `k`-th**, at which it stops. -/
structure ReadsUpTo (s : Stream) (k : Nat) : Prop where
  stops : s.StopsAt k
  /-- It does not go past the first end-of-stream token. -/
  le_end : k ≤ s.toList.findIdx (fun t => t.kind = .eof)
  /-- Any stream with the same tokens up to there gives the same answer. -/
  same : ∀ s' : Stream, (∀ i ≤ k, s'.toList[i]? = s.toList[i]?) → s'.next.1 = s.next.1

/-- The token behind a front part of a stream is next in the rest of it. -/
theorem split_toList {pre more : List Token} {t : Token} (h : s.toList = pre ++ t :: more) :
    ∃ rest, s.tokens = pre ++ rest ∧ (mk rest s.finish).toList = t :: more := by
  obtain ⟨rest, last, hrest⟩ : ∃ rest last, t :: more = rest ++ [last] :=
    ⟨_, _, (List.dropLast_concat_getLast (List.cons_ne_nil t more)).symm⟩
  rw [hrest, ← List.append_assoc] at h
  obtain ⟨hfront, hlast⟩ := List.append_inj' h rfl
  refine ⟨rest, hfront, ?_⟩
  rw [hrest, ← hlast]
  rfl

theorem head_of_toList {more : List Token} {t : Token} (h : s.toList = t :: more) : s.head = t := by
  obtain ⟨more', hmore'⟩ := s.toList_eq_cons
  rw [hmore'] at h
  exact (List.cons.inj h).1

/-- A reader cannot tell the end of a stream from an end-of-stream token. -/
theorem next?_toList (s : Stream) : next? s.toList = next? s.tokens := by
  obtain ⟨tokens, finish⟩ := s
  cases tokens with
  | nil => exact next?_eof finish []
  | cons t r => rfl

/-- A program that is read, up to its dot. -/
theorem readsUpTo_of_ok {tree : Program} (h : s.next.1 = .ok tree) : ∃ k, s.ReadsUpTo k := by
  obtain ⟨pre, htokens, hpre⟩ := tokens_eq_of_next h
  obtain ⟨tree', hnext⟩ := next_of_sentence hpre
  obtain ⟨front, dot, rfl, hdot⟩ := dot_of_sentence hpre
  have hread : ∀ (s : Stream) r, s.tokens = front ++ [dot] ++ r →
      s.next = (.ok tree', ⟨r, s.finish⟩) := by
    rintro ⟨tokens, finish⟩ r rfl
    exact hnext r finish
  have hthis := hread s _ htokens
  have hlist : s.toList = front ++ dot :: (s.next.2.tokens ++ [s.last]) := by
    rw [toList, htokens, List.append_assoc, List.append_assoc]
    rfl
  have hfront : Token.Kind.eof ∉ front.map Token.kind := by
    intro hmem
    refine hpre.ne_eof ?_
    rw [List.map_append]
    exact List.mem_append_left _ hmem
  refine ⟨front.length, ?_, ?_, fun s' hagree => ?_⟩
  · have hat : s.toList[front.length]? = some dot := by
      rw [hlist, List.getElem?_append_right (Nat.le_refl _), Nat.sub_self]
      rfl
    have hbehind : s.next.2.toList = s.toList.drop (front.length + 1) := by
      rw [hlist, List.append_cons, List.drop_left' (by simp), hthis]
      rfl
    unfold StopsAt
    rw [h, hat, Option.map_some, hdot]
    exact ⟨rfl, hbehind⟩
  · rw [hlist]
    exact le_findIdx_eof hfront _
  -- the same sentence is ahead in the other stream
  · obtain ⟨more, hmore⟩ := exists_append_of_agree hlist hagree
    have hahead : s'.Ahead (front ++ [dot]) more := by
      refine ⟨?_, hpre⟩
      rw [hmore, List.append_cons]
    obtain ⟨r, htokens', _, _⟩ := ahead_iff.mp hahead
    rw [hread s' r htokens', hthis]

/-- A reading that fails, up to the token that is rejected. -/
theorem readsUpTo_of_error {e : SyntaxError} (h : s.next.1 = .error e) : ∃ k, s.ReadsUpTo k := by
  obtain ⟨pre, rest, expected, htokens, hleft, he, ⟨w, hviable⟩, hsame⟩ := next_error_taken h
  obtain ⟨more, hmore⟩ := toList_eq_cons ⟨rest, s.finish⟩
  have hsplit : s.toList = pre ++ (mk rest s.finish).toList := by
    rw [toList, htokens, List.append_assoc]
    rfl
  have hlist : s.toList = pre ++ head ⟨rest, s.finish⟩ :: more := by
    rw [hsplit, hmore]
  have hpre : Token.Kind.eof ∉ pre.map Token.kind :=
    fun hmem => hviable.ne_eof (List.mem_append_left _ hmem)
  refine ⟨pre.length, ?_, ?_, fun s' hagree => ?_⟩
  · have hat : s.toList[pre.length]? = some (head ⟨rest, s.finish⟩) := by
      rw [hlist, List.getElem?_append_right (Nat.le_refl _), Nat.sub_self]
      rfl
    unfold StopsAt
    rw [h, hleft, hsplit, List.drop_left, ← hsplit, he]
    exact ⟨⟨_, hat, rfl, rfl⟩, rfl⟩
  · rw [hlist]
    exact le_findIdx_eof hpre _
  -- the other stream has the same token behind the same front part
  · obtain ⟨more', hmore'⟩ := exists_append_of_agree hlist hagree
    obtain ⟨rest', htokens', hrest'⟩ := split_toList hmore'
    have hnext : next? rest' = next? rest := by
      have hother := next?_toList ⟨rest', s'.finish⟩
      have hthis := next?_toList ⟨rest, s.finish⟩
      rw [hrest'] at hother
      rw [hmore] at hthis
      exact hother.symm.trans hthis
    have hread : Reader.of program s'.tokens = (.error expected, rest') := by
      rw [htokens']
      exact hsame rest' hnext
    have hhead : head ⟨rest', s'.finish⟩ = head ⟨rest, s.finish⟩ := head_of_toList hrest'
    rw [h]
    refine next_eq_error.mpr ⟨expected, rest', hread, ?_⟩
    rw [he, reject, reject, hhead]

theorem exists_readsUpTo (s : Stream) : ∃ k, s.ReadsUpTo k := by
  cases h : s.next.1 with
  | ok tree => exact readsUpTo_of_ok h
  | error e => exact readsUpTo_of_error h

end Stream

/-! ## Ends -/

/-- Behind an end-of-stream token, only the tokens behind it count for where a list ends. -/
theorem endsInLastColumn_append {ts more : List Token} {span : Span} :
    EndsInLastColumn (ts ++ ⟨.eof, span⟩ :: more) ↔ EndsInLastColumn more := by
  unfold EndsInLastColumn
  rcases List.eq_nil_or_concat more with rfl | ⟨front, last, rfl⟩
  · simp
  · rw [List.concat_eq_append, List.append_cons, ← List.append_assoc, List.getLast?_concat,
      List.getLast?_concat]

/-! ## Answers -/

/-- The answer to a list of tokens is that of its stream. -/
theorem ofTokens?_of_stream {ts : List Token} {s : Stream} (h : Stream.ofTokens? ts = some s) :
    Program.ofTokens? ts = some s.next.1 := by
  unfold Program.ofTokens?
  rw [h]
  rfl

/-- Written out, a stream of tokens starts with the tokens. -/
theorem prefix_toList {ts : List Token} {s : Stream} (h : Stream.ofTokens? ts = some s) :
    s.toList = ts ∨ s.toList = ts ++ [s.last] := by
  rcases Stream.ofTokens?_cases h with hlist | htokens
  · exact .inl hlist
  · rw [← htokens]
    exact .inr rfl

/-- Nothing behind an end-of-stream token has an influence on a list that is read. -/
theorem ofTokens?_behind_eof {ts more : List Token} {span : Span} {s : Stream}
    (h : Stream.ofTokens? (ts ++ ⟨.eof, span⟩ :: more) = some s) :
    Program.ofTokens? (ts ++ ⟨.eof, span⟩ :: more) = Program.ofTokens? (ts ++ [⟨.eof, span⟩]) := by
  obtain ⟨k, hreads⟩ := (Stream.mk ts span).exists_readsUpTo
  have hlist : (Stream.mk ts span).toList = ts ++ [⟨.eof, span⟩] := rfl
  have hle : k ≤ ts.length := by
    have hfound : (Stream.mk ts span).toList.findIdx (fun t => t.kind = .eof) <
        (Stream.mk ts span).toList.length := by
      refine List.findIdx_lt_length_of_exists ⟨⟨.eof, span⟩, ?_, rfl⟩
      exact List.mem_append_right _ List.mem_cons_self
    rw [hlist, List.length_append, List.length_singleton] at hfound
    have hend := hreads.le_end
    rw [hlist] at hend
    omega
  -- both go on with the end-of-stream token behind `ts`
  obtain ⟨behind, hbehind⟩ : ∃ behind, s.toList = ts ++ ⟨.eof, span⟩ :: behind := by
    rcases prefix_toList h with hs | hs
    · exact ⟨more, hs⟩
    · exact ⟨more ++ [s.last], by rw [hs, List.append_assoc, List.cons_append]⟩
  have hagree : ∀ i ≤ k, s.toList[i]? = (Stream.mk ts span).toList[i]? := by
    intro i hi
    have hlt : i < (ts ++ [Token.mk .eof span]).length := by
      rw [List.length_append, List.length_singleton]
      omega
    rw [hbehind, List.append_cons, List.getElem?_append_left hlt, hlist]
  rw [ofTokens?_of_stream h, ofTokens?_closed, hreads.same s hagree]

/-- **The answer depends on the tokens up to where the reading stops.** A list of tokens is read unless it
    ends in the last column. If it is read, with its end written behind it if it has none, then the
    reading stops at some place, at the first end-of-stream token at the latest, and every list that is
    read and is the same up to there has the same answer. Writing the end does not change the answer. And
    what is written behind an end-of-stream token changes it exactly if it ends in the last column. -/
theorem answer_depends_on_prefix (ts : List Token) :
    (Program.ofTokens? ts = none ↔ EndsInLastColumn ts) ∧
    (∀ s, Stream.ofTokens? ts = some s →
      (∃ k, s.StopsAt k ∧ k ≤ s.toList.findIdx (fun t => t.kind = .eof) ∧
        ∀ ts' s', Stream.ofTokens? ts' = some s' → (∀ i ≤ k, s'.toList[i]? = s.toList[i]?) →
          Program.ofTokens? ts' = Program.ofTokens? ts) ∧
      (s.toList = ts ∨ s.toList = ts ++ [s.last]) ∧
      Program.ofTokens? s.toList = Program.ofTokens? ts) ∧
    ∀ span more,
      Program.ofTokens? (ts ++ ⟨.eof, span⟩ :: more) = Program.ofTokens? (ts ++ [⟨.eof, span⟩]) ↔
        ¬ EndsInLastColumn more := by
  refine ⟨Program.ofTokens?_eq_none, fun s hs => ⟨?_, prefix_toList hs, ?_⟩, fun span more => ⟨?_, ?_⟩⟩
  · obtain ⟨k, hreads⟩ := s.exists_readsUpTo
    refine ⟨k, hreads.stops, hreads.le_end, fun ts' s' hs' hagree => ?_⟩
    rw [ofTokens?_of_stream hs, ofTokens?_of_stream hs', hreads.same s' hagree]
  · rw [ofTokens?_of_stream hs, ofTokens?_of_stream (Stream.ofTokens?_toList s)]
  · intro hsame hends
    rw [Program.ofTokens?_eq_none.mpr (endsInLastColumn_append.mpr hends), ofTokens?_closed] at hsame
    cases hsame
  · intro hends
    cases hstream : Stream.ofTokens? (ts ++ ⟨.eof, span⟩ :: more) with
    | some s => exact ofTokens?_behind_eof hstream
    | none =>
        have hnone : Program.ofTokens? (ts ++ ⟨.eof, span⟩ :: more) = none := by
          rw [Program.ofTokens?, hstream]
          rfl
        exact absurd (endsInLastColumn_append.mp (Program.ofTokens?_eq_none.mp hnone)) hends

/-- A program without its end, with its end, with stray tokens behind its end, and with stray tokens
    behind its dot, at which the reading stops. -/
theorem answer_depends_on_prefix_emptyProgram :
    (Stream.mk (emptyProgram 1) ⟨10, 10, 1, 11⟩).StopsAt 2 ∧
    Program.ofTokens? (emptyProgram 1 ++ [⟨.eof, ⟨10, 10, 1, 11⟩⟩]) =
      Program.ofTokens? (emptyProgram 1) ∧
    Program.ofTokens? (emptyProgram 1 ++ ⟨.eof, ⟨10, 10, 1, 11⟩⟩ :: strayTokens) =
      Program.ofTokens? (emptyProgram 1 ++ [⟨.eof, ⟨10, 10, 1, 11⟩⟩]) ∧
    Program.ofTokens? (emptyProgram 1 ++ strayTokens) = Program.ofTokens? (emptyProgram 1) := by
  obtain ⟨_, hread, hbehind⟩ := answer_depends_on_prefix (emptyProgram 1)
  have hstream : Stream.ofTokens? (emptyProgram 1) = some ⟨emptyProgram 1, ⟨10, 10, 1, 11⟩⟩ := by
    decide
  obtain ⟨⟨k, hstops, hle, hsame⟩, _, hwritten⟩ := hread _ hstream
  have hends : ¬ EndsInLastColumn strayTokens := by
    rintro ⟨t, ht, _, hcolumn⟩
    cases ht
    exact absurd hcolumn (by decide)
  -- the program has only one dot
  have hdot : k = 2 := by
    obtain ⟨tree, hnext⟩ := next_of_sentence (sentence_emptyProgram 1)
    have hok := hnext [] ⟨10, 10, 1, 11⟩
    rw [List.append_nil] at hok
    have honly : ∀ i ≤ 3, (Stream.mk (emptyProgram 1) ⟨10, 10, 1, 11⟩).toList[i]?.map Token.kind =
        some (.punct .dot) → i = 2 := by decide
    have hat := hstops
    unfold Stream.StopsAt at hat
    rw [hok] at hat
    exact honly k hle hat.1
  subst hdot
  have hstray : Stream.ofTokens? (emptyProgram 1 ++ strayTokens) =
      some ⟨emptyProgram 1 ++ strayTokens, ⟨25, 25, 1, 24⟩⟩ := by decide
  exact ⟨hstops, hwritten, (hbehind _ _).mpr hends, hsame _ _ hstray (by decide)⟩

/-- **What is written behind an end-of-stream token can change the answer.** The end-of-stream token alone
    is read, and the error is that no block starts there. With a name in the last column behind it, the
    list has no place for its end and gets no answer. -/
theorem appended_token_changes_answer :
    (∃ e, Program.ofTokens? [⟨.eof, ⟨1, 1, 1, 1⟩⟩] = some (.error e) ∧ e.expected = "'begin'" ∧
      e.found = "end-of-stream" ∧ e.span = ⟨1, 1, 1, 1⟩) ∧
    Program.ofTokens? ([⟨.eof, ⟨1, 1, 1, 1⟩⟩] ++ [⟨.ident "x", ⟨5, 6, 1, Span.maxColumn⟩⟩]) = none := by
  have hread : Reader.of program [] = (.error .blockBegin, []) := by
    rw [of_program, of_varSections, of_routines, of_block, of_expect]
    rfl
  have herror := Stream.next_eq_error (s := ⟨[], ⟨1, 1, 1, 1⟩⟩) |>.mpr ⟨_, _, hread, rfl⟩
  refine ⟨⟨_, (ofTokens?_closed [] ⟨1, 1, 1, 1⟩).trans (congrArg some herror), rfl, rfl, rfl⟩, ?_⟩
  exact Program.ofTokens?_eq_none.mpr ⟨_, rfl, nofun, Nat.le_refl _⟩

end TinyPascal
