import TinyPascal.Proofs.Grammar.Cursor
import TinyPascal.Proofs.Grammar.ReadPrefix

/-!
# `Proofs.Grammar.Following` — walks that do what readers do

A reader takes tokens off a list and a walk moves an index. A walk **follows** a reader if from every index
it ends where the reader stops, with the same value, or with the error that the reader's expectation is at
that place. On its way it passes no end-of-stream token. Each way to put readers together has a way to put
walks together that follows it.

## Contents
- **Indices.** `Stream.drop`, the stream from an index on.
- **Readers in a row.** Laws of `Reader.andThen`.
- **Steps.** What each walk over a single token does.
- **Following a reader.** `Reaches`, `Tracks`, `Follows`; `FollowsAt` in front of a known token. One lemma for
  each way to put walks together.
-/

namespace TinyPascal

/-! ## Indices -/

namespace Stream

variable {s : Stream} {i : Nat} {t : Token}

/-- The stream from an index on. -/
def drop (s : Stream) (i : Nat) : Stream :=
  ⟨s.tokens.drop i, s.finish⟩

theorem length_toList (s : Stream) : s.toList.length = s.tokens.length + 1 := by
  rw [toList, List.length_append, List.length_singleton]

/-- An index is at a token with others behind it, or at the last one, which is the end. -/
theorem getElem?_toList_cases (h : s.toList[i]? = some t) :
    (i < s.tokens.length ∧ s.tokens.drop i = t :: s.tokens.drop (i + 1)) ∨
      (i = s.tokens.length ∧ s.tokens.drop i = [] ∧ t = s.last) := by
  unfold toList at h
  by_cases hlt : i < s.tokens.length
  · rw [List.getElem?_append_left hlt, List.getElem?_eq_getElem hlt] at h
    cases h
    exact .inl ⟨hlt, List.drop_eq_getElem_cons hlt⟩
  · have hle : s.tokens.length ≤ i := Nat.le_of_not_lt hlt
    rw [List.getElem?_append_right hle] at h
    have hzero : i - s.tokens.length = 0 := by
      have hbound := (List.getElem?_eq_some_iff.mp h).1
      simpa using hbound
    rw [hzero] at h
    cases h
    exact .inr ⟨by omega, List.drop_eq_nil_of_le hle, rfl⟩

/-- The token at an index is the head of the stream from there on. -/
theorem head_drop (h : s.toList[i]? = some t) : (s.drop i).head = t := by
  unfold drop head
  rcases getElem?_toList_cases h with ⟨_, hdrop⟩ | ⟨_, hdrop, rfl⟩
  · rw [hdrop]
    rfl
  · rw [hdrop]
    rfl

end Stream

/-! ## Readers in a row -/

namespace Parser
namespace Reader

variable {α β γ : Type} {kind : Token.Kind} {e : Expectation}

/-- Readers in a row may be grouped in any way. -/
theorem andThen_assoc {p : Reader α} {k : α → Reader β} {l : β → Reader γ} :
    andThen (andThen p k) l = andThen p (fun v => andThen (k v) l) := by
  funext ts
  simp only [andThen]
  cases p ts with
  | mk found r => cases found <;> rfl

theorem done_andThen {v : α} {k : α → Reader β} : andThen (done v) k = k v := rfl

theorem ahead_andThen {k : Option Token → Reader α} {l : α → Reader β} :
    andThen (ahead k) l = ahead (fun t => andThen (k t) l) := rfl

theorem andThen_done {p : Reader α} : andThen p done = p := by
  funext ts
  simp only [andThen]
  cases p ts with
  | mk found r => cases found <;> rfl

/-- What goes on behind a branch goes on behind each of its ways. -/
theorem branch_andThen {f : Token → Option (Reader α)} {no : Reader α} {k : α → Reader β} :
    andThen (branch f no) k =
      branch (fun t => (f t).map (fun q => andThen q k)) (andThen no k) := by
  funext ts
  cases ts with
  | nil => rfl
  | cons t r =>
      simp only [andThen, branch]
      cases f t <;> rfl

theorem on_andThen {q : Span → Reader α} {no : Reader α} {k : α → Reader β} :
    andThen (branch (on kind q) no) k =
      branch (on kind (fun span => andThen (q span) k)) (andThen no k) := by
  rw [branch_andThen]
  congr 1
  funext t
  unfold on
  split <;> rfl

theorem expect_andThen {k : Span → Reader α} :
    andThen (Reader.of (expect kind e)) k = branch (on kind k) (fail e) := by
  rw [of_expect, on_andThen]
  rfl

/-- Expecting a name is branching on names. -/
theorem identifier_andThen {k : Ident → Reader α} :
    andThen (Reader.of identifier) k = branch (onName k) (fail .identifier) := by
  rw [of_identifier, branch_andThen]
  congr 1
  funext t
  unfold onName
  split <;> rfl

/-- Expecting the name of a type is branching on such names. -/
theorem typeName_andThen {k : Ty × Span → Reader α} :
    andThen (Reader.of typeName) k = branch (onType k) (fail .typeName) := by
  rw [of_typeName, branch_andThen]
  congr 1
  funext t
  unfold onType
  split <;> rfl

end Reader
end Parser

namespace Cursor

open TinyPascal.Parser (Reader)
open TinyPascal.Parser.Reader (done fail andThen branch ahead on onOp)

/-! ## Steps -/

section Steps

variable {α β : Type} {v : List Token} {i j : Nat} {t : Token} {kind : Token.Kind} {text : String}

/-- The second walk goes on where the first one stopped. -/
theorem bind_of_ok {x : Walk α} {f : α → Walk β} {a : α} (h : x v i = some (.ok a, j)) :
    (x >>= f) v i = f a v j := by
  show (x v i >>= _) = _
  rw [h]
  rfl

/-- A walk that stops ends those behind it. -/
theorem bind_of_error {x : Walk α} {f : α → Walk β} {e : Halt} (h : x v i = some (.error e, j)) :
    (x >>= f) v i = some (.error e, j) := by
  show (x v i >>= _) = _
  rw [h]
  rfl

theorem tokenAt_eq (h : v[j]? = some t) : tokenAt j v i = some (.ok t, i) := by
  unfold tokenAt
  refine (bind_of_ok (x := read) (a := v) (j := i) rfl).trans ?_
  simp only [h]
  rfl

theorem peek_eq (h : v[i]? = some t) : peek v i = some (.ok t, i) := by
  show tokenAt (min i (v.length - 1)) v i = _
  have hlt := (List.getElem?_eq_some_iff.mp h).1
  rw [Nat.min_eq_left (by omega)]
  exact tokenAt_eq h

theorem peekKind_eq (h : v[i]? = some t) : peekKind v i = some (.ok t.kind, i) :=
  bind_of_ok (peek_eq h)

theorem currentSpan_eq (h : v[i]? = some t) : currentSpan v i = some (.ok t.span, i) :=
  bind_of_ok (peek_eq h)

theorem check_eq (h : v[i]? = some t) : check kind v i = some (.ok (t.kind = kind), i) :=
  bind_of_ok (peekKind_eq h)

theorem previousSpan_eq (h : v[i]? = some t) :
    previousSpan v (i + 1) = some (.ok t.span, i + 1) :=
  bind_of_ok (tokenAt_eq h)

/-- An error names the token at the cursor. -/
theorem reject_eq (h : v[i]? = some t) :
    (reject text : Walk α) v i = some (.error (.rejected ⟨text, t.kind.text, t.span⟩), i) :=
  bind_of_ok (peek_eq h)

theorem advance_eq (h : v[i]? = some t) (hlt : i + 1 < v.length) :
    advance v i = some (.ok t, i + 1) := by
  refine (bind_of_ok (peek_eq h)).trans ?_
  show (if i < v.length - 1 then (modify (· + 1) >>= fun _ => pure t : Walk Token) else pure t) v i = _
  rw [if_pos (by omega)]
  rfl

theorem discard_advance_eq (h : v[i]? = some t) (hlt : i + 1 < v.length) :
    (discard advance : Walk Unit) v i = some (.ok (), i + 1) := by
  show (advance v i >>= _) = _
  rw [advance_eq h hlt]
  rfl

/-- A token of the kind that is asked for is passed. -/
theorem matchToken_eq_true (h : v[i]? = some t) (hlt : i + 1 < v.length) (hkind : t.kind = kind) :
    matchToken kind v i = some (.ok true, i + 1) := by
  refine (bind_of_ok (check_eq h)).trans ?_
  rw [if_pos (decide_eq_true hkind)]
  exact bind_of_ok (discard_advance_eq h hlt)

/-- Any other token stays in front of the cursor. -/
theorem matchToken_eq_false (h : v[i]? = some t) (hkind : t.kind ≠ kind) :
    matchToken kind v i = some (.ok false, i) := by
  refine (bind_of_ok (check_eq h)).trans ?_
  rw [if_neg (by simpa using hkind)]
  rfl

/-- A token that is expected is passed. -/
theorem expect_eq_ok (h : v[i]? = some t) (hlt : i + 1 < v.length) (hkind : t.kind = kind) :
    expect kind text v i = some (.ok (), i + 1) := by
  refine (bind_of_ok (check_eq h)).trans ?_
  rw [if_pos (decide_eq_true hkind)]
  exact discard_advance_eq h hlt

/-- Any other token is an error. -/
theorem expect_eq_error (h : v[i]? = some t) (hkind : t.kind ≠ kind) :
    expect kind text v i = some (.error (.rejected ⟨text, t.kind.text, t.span⟩), i) := by
  refine (bind_of_ok (check_eq h)).trans ?_
  rw [if_neg (by simpa using hkind)]
  exact reject_eq h

/-- A name is passed where one is expected. -/
theorem expectIdentifier_eq {name : String} {span : Span} (h : v[i]? = some ⟨.ident name, span⟩)
    (hlt : i + 1 < v.length) : expectIdentifier v i = some (.ok ⟨name, span⟩, i + 1) := by
  refine (bind_of_ok (peekKind_eq h)).trans ?_
  refine (bind_of_ok (currentSpan_eq h)).trans ?_
  exact bind_of_ok (discard_advance_eq h hlt)

/-- A type is taken or it is not, as a reader does. -/
theorem typeName_cases (k : Ty × Span → Reader α) (t : Token) :
    (∃ ty, t.kind ≠ .eof ∧ Parser.onType k t = some (k (ty, t.span)) ∧
      ∀ v i, v[i]? = some t → i + 1 < v.length → typeName v i = some (.ok ty, i + 1)) ∨
    (Parser.onType k t = none ∧ ∀ v i, v[i]? = some t → typeName v i =
      some (.error (.rejected ⟨Expectation.typeName.describe, t.kind.text, t.span⟩), i)) := by
  obtain ⟨kind, span⟩ := t
  unfold typeName
  cases kind with
  | keyword word =>
      cases word with
      | integer =>
          refine .inl ⟨.integer, nofun, rfl, fun v i hv hlt => ?_⟩
          exact (bind_of_ok (peekKind_eq hv)).trans (bind_of_ok (discard_advance_eq hv hlt))
      | boolean =>
          refine .inl ⟨.boolean, nofun, rfl, fun v i hv hlt => ?_⟩
          exact (bind_of_ok (peekKind_eq hv)).trans (bind_of_ok (discard_advance_eq hv hlt))
      | _ => exact .inr ⟨rfl, fun v i hv => (bind_of_ok (peekKind_eq hv)).trans (reject_eq hv)⟩
  | _ => exact .inr ⟨rfl, fun v i hv => (bind_of_ok (peekKind_eq hv)).trans (reject_eq hv)⟩

end Steps

/-! ## Following a reader -/

/-- A kind of token that does not end a stream, so that a token stands behind it. -/
class Passable (kind : Token.Kind) : Prop where
  ne_eof : kind ≠ .eof

instance {word : Keyword} : Passable (.keyword word) := ⟨nofun⟩

instance {mark : Punct} : Passable (.punct mark) := ⟨nofun⟩

instance {op : Operator} : Passable (.operator op) := ⟨nofun⟩

instance {name : String} : Passable (.ident name) := ⟨nofun⟩

instance {value : Int} : Passable (.int value) := ⟨nofun⟩

/-- From one index to another one: forward, in range, and past no end-of-stream token. -/
structure Reaches (s : Stream) (i j : Nat) : Prop where
  forward : i ≤ j
  inRange : j < s.toList.length
  noEnd : ∀ k t, i ≤ k → k < j → s.toList[k]? = some t → t.kind ≠ .eof

namespace Reaches

variable {s : Stream} {i j k : Nat} {t : Token}

theorem refl (h : s.toList[i]? = some t) : Reaches s i i where
  forward := Nat.le_refl i
  inRange := (List.getElem?_eq_some_iff.mp h).1
  noEnd _ _ hle hlt _ := absurd hle (Nat.not_le_of_lt hlt)

theorem trans (h : Reaches s i j) (h' : Reaches s j k) : Reaches s i k where
  forward := Nat.le_trans h.forward h'.forward
  inRange := h'.inRange
  noEnd l t hle hlt hl := by
    by_cases hlj : l < j
    · exact h.noEnd l t hle hlj hl
    · exact h'.noEnd l t (Nat.le_of_not_lt hlj) hlt hl

/-- The end-of-stream token at the very end is not passed, so a token of another kind has one behind
    it. -/
theorem lt_of_ne_eof (h : s.toList[i]? = some t) (hkind : t.kind ≠ .eof) :
    i + 1 < s.toList.length ∧ s.tokens.drop i = t :: s.tokens.drop (i + 1) := by
  rcases Stream.getElem?_toList_cases h with ⟨hlt, hdrop⟩ | ⟨_, _, rfl⟩
  · rw [s.length_toList]
    exact ⟨by omega, hdrop⟩
  · exact absurd rfl hkind

/-- One step past a token that is not the end of a stream. -/
theorem step (h : s.toList[i]? = some t) (hkind : t.kind ≠ .eof) : Reaches s i (i + 1) where
  forward := Nat.le_succ i
  inRange := (lt_of_ne_eof h hkind).1
  noEnd k t' hle hlt hk := by
    have heq : k = i := by omega
    subst heq
    rw [h] at hk
    cases hk
    exact hkind

end Reaches

section Definitions

variable {α β : Type}

/-- A run from `i` ends where a reading of the tokens from there on has stopped, with what was read or
    with the error at that place. -/
def Tracks (s : Stream) (i : Nat) (reading : Except Expectation α × List Token)
    (run : Option (Except Halt α × Nat)) : Prop :=
  ∃ j, Reaches s i j ∧ reading.2 = s.tokens.drop j ∧
    run = some (reading.1.mapError (fun e => .rejected ((s.drop j).reject e)), j)

/-- The walk does what the reader does in front of `t`, with at most `n` tokens left. -/
def FollowsAt (s : Stream) (n : Nat) (t : Token) (p : Reader α) (y : Walk α) : Prop :=
  ∀ i, s.toList[i]? = some t → s.tokens.length ≤ i + n →
    Tracks s i (p (s.tokens.drop i)) (y s.toList i)

/-- **Doing what a reader does**, from every index with at most `n` tokens left. -/
def Follows (s : Stream) (n : Nat) (p : Reader α) (y : Walk α) : Prop :=
  ∀ t, FollowsAt s n t p y

variable {s : Stream} {n : Nat} {t : Token} {kind : Token.Kind} {e : Expectation}

namespace FollowsAt

variable {p : Reader α} {x : Walk β} {f : β → Walk α} {a : β} {g : Token → Option (Reader α)}
  {no q : Reader α} {y : Walk α}

/-- Two walks that do the same at a token follow the same reader there. -/
theorem of_eq {z : Walk α} (hy : ∀ v i, v[i]? = some t → y v i = z v i) (h : FollowsAt s n t p z) :
    FollowsAt s n t p y := by
  intro i ht hn
  rw [hy s.toList i ht]
  exact h i ht hn

/-- A walk that takes the token and goes on behind it. -/
theorem take {z : Walk α} (hy : ∀ v i, v[i]? = some t → i + 1 < v.length → y v i = z v (i + 1))
    (hkind : t.kind ≠ .eof) (hg : g t = some q) (h : ∀ m < n, Follows s m q z) :
    FollowsAt s n t (branch g no) y := by
  intro i ht hn
  obtain ⟨hlt, hdrop⟩ := Reaches.lt_of_ne_eof ht hkind
  rw [hy s.toList i ht hlt, hdrop, Parser.Reader.branch_some hg]
  have hlen := s.length_toList
  obtain ⟨j, hreach, hrest, hrun⟩ :=
    h (n - 1) (by omega) _ (i + 1) (List.getElem?_eq_getElem hlt) (by omega)
  exact ⟨j, (Reaches.step ht hkind).trans hreach, hrest, hrun⟩

/-- A branch that is not taken. -/
theorem pass (hg : g t = none) (h : FollowsAt s n t no y) : FollowsAt s n t (branch g no) y := by
  intro i ht hn
  have hbranch : branch g no (s.tokens.drop i) = no (s.tokens.drop i) := by
    rcases Stream.getElem?_toList_cases ht with ⟨_, hdrop⟩ | ⟨_, hdrop, _⟩
    · rw [hdrop, Parser.Reader.branch_none hg]
    · rw [hdrop]
      rfl
  rw [hbranch]
  exact h i ht hn

/-- What is done ahead of the end of the list is done in front of its end-of-stream token. -/
theorem ahead {k : Option Token → Reader α} (h : FollowsAt s n t (k (some t)) y)
    (hend : t.kind = .eof → k none [] = k (some t) []) : FollowsAt s n t (ahead k) y := by
  intro i ht hn
  have hrun := h i ht hn
  unfold Parser.Reader.ahead
  rcases Stream.getElem?_toList_cases ht with ⟨_, hdrop⟩ | ⟨_, hdrop, rfl⟩
  · rw [hdrop] at hrun ⊢
    exact hrun
  · rw [hdrop] at hrun ⊢
    show Tracks s i (k none []) (y s.toList i)
    rw [hend rfl]
    exact hrun

theorem peekKind {f : Token.Kind → Walk α} (h : FollowsAt s n t p (f t.kind)) :
    FollowsAt s n t p (Cursor.peekKind >>= f) :=
  of_eq (fun _ _ ht => bind_of_ok (peekKind_eq ht)) h

theorem currentSpan {f : Span → Walk α} (h : FollowsAt s n t p (f t.span)) :
    FollowsAt s n t p (Cursor.currentSpan >>= f) :=
  of_eq (fun _ _ ht => bind_of_ok (currentSpan_eq ht)) h

section Known

variable [Passable kind] {span : Span}

/-- Passing a token is taking it in a branch; fewer tokens are left behind it. -/
theorem advance {f : Token → Walk α} (hg : g ⟨kind, span⟩ = some q)
    (h : ∀ m < n, Follows s m q (f ⟨kind, span⟩)) :
    FollowsAt s n ⟨kind, span⟩ (branch g no) (Cursor.advance >>= f) :=
  take (fun _ _ ht hlt => bind_of_ok (advance_eq ht hlt)) Passable.ne_eof hg h

/-- Passing a token whose value is not needed. -/
theorem discard {f : Unit → Walk α} (hg : g ⟨kind, span⟩ = some q) (h : ∀ m < n, Follows s m q (f ())) :
    FollowsAt s n ⟨kind, span⟩ (branch g no) (Functor.discard Cursor.advance >>= f) :=
  take (fun _ _ ht hlt => bind_of_ok (discard_advance_eq ht hlt)) Passable.ne_eof hg h

/-- A token that is known to be the one that is insisted on. -/
theorem expect {text : String} {f : Unit → Walk α} (hg : g ⟨kind, span⟩ = some q)
    (h : ∀ m < n, Follows s m q (f ())) :
    FollowsAt s n ⟨kind, span⟩ (branch g no) (Cursor.expect kind text >>= f) :=
  take (fun _ _ ht hlt => bind_of_ok (expect_eq_ok ht hlt rfl)) Passable.ne_eof hg h

/-- Passing a name. -/
theorem expectIdentifier {name : String} {f : Ident → Walk α} (hg : g ⟨.ident name, span⟩ = some q)
    (h : ∀ m < n, Follows s m q (f ⟨name, span⟩)) :
    FollowsAt s n ⟨.ident name, span⟩ (branch g no) (Cursor.expectIdentifier >>= f) :=
  take (fun _ _ ht hlt => bind_of_ok (expectIdentifier_eq ht hlt)) Passable.ne_eof hg h

/-- A token that is known to be there is insisted on. -/
theorem of_expect {k : Span → Reader α}
    (h : Follows s n (andThen (Reader.of (Parser.expect kind e)) k) y) :
    FollowsAt s n ⟨kind, span⟩ (branch (on kind k) no) y := by
  intro i ht hn
  obtain ⟨_, hdrop⟩ := Reaches.lt_of_ne_eof ht Passable.ne_eof
  have hrun := h _ i ht hn
  rw [Parser.Reader.expect_andThen, hdrop, Parser.Reader.branch_on_cons] at hrun
  rw [hdrop, Parser.Reader.branch_on_cons]
  exact hrun

end Known

end FollowsAt

namespace Follows

variable {p : Reader β} {x : Walk β} {k : β → Reader α} {f : β → Walk α} {no : Reader α} {y z : Walk α}

/-- A walk that follows a reader tracks it from every index that leaves few enough tokens. -/
theorem tracks {p : Reader α} (h : Follows s n p y) {i : Nat} (hi : i < s.toList.length)
    (hn : s.tokens.length ≤ i + n) : Tracks s i (p (s.tokens.drop i)) (y s.toList i) :=
  h _ i (List.getElem?_eq_getElem hi) hn

theorem mono {m : Nat} {p : Reader α} (h : Follows s n p y) (hle : m ≤ n) : Follows s m p y := by
  intro t i ht hn
  exact h t i ht (by omega)

theorem done {v : α} : Follows s n (Parser.Reader.done v) (pure v) := by
  intro t i ht _
  exact ⟨i, .refl ht, rfl, rfl⟩

theorem fail : Follows s n (Parser.Reader.fail (α := α) e) (reject e.describe) := by
  intro t i ht _
  refine ⟨i, .refl ht, rfl, ?_⟩
  rw [reject_eq ht]
  show _ = some (Except.error (Halt.rejected ((s.drop i).reject e)), i)
  rw [Stream.reject, Stream.head_drop ht]

/-- Two walks in a row, of which the second starts where the first one ended. -/
theorem andThen_of (hp : Follows s n p x)
    (hk : ∀ i j v, s.tokens.length ≤ i + n → Reaches s i j →
      p (s.tokens.drop i) = (.ok v, s.tokens.drop j) →
      Tracks s j (k v (s.tokens.drop j)) (f v s.toList j)) :
    Follows s n (andThen p k) (x >>= f) := by
  intro t i ht hn
  obtain ⟨j, hreach, hrest, hrun⟩ := hp t i ht hn
  cases hres : p (s.tokens.drop i) with
  | mk found r =>
      rw [hres] at hrest hrun
      cases hrest
      cases found with
      | error e =>
          have hread : andThen p k (s.tokens.drop i) = (.error e, s.tokens.drop j) := by
            simp only [andThen, hres]
          rw [hread]
          exact ⟨j, hreach, rfl, bind_of_error hrun⟩
      | ok v =>
          have hread : andThen p k (s.tokens.drop i) = k v (s.tokens.drop j) := by
            simp only [andThen, hres]
          obtain ⟨j', hreach', hrest', hrun'⟩ := hk i j v hn hreach hres
          rw [hread]
          exact ⟨j', hreach.trans hreach', hrest', (bind_of_ok hrun).trans hrun'⟩

theorem andThen (hp : Follows s n p x) (hk : ∀ v, Follows s n (k v) (f v)) :
    Follows s n (andThen p k) (x >>= f) := by
  refine hp.andThen_of (fun i j v hn hreach _ => ?_)
  have hle := hreach.forward
  exact (hk v).tracks hreach.inRange (by omega)

/-- Behind a parser that has taken a token, fewer tokens are left. -/
theorem andThen_shorter {g : (ts : List Token) → Parser.Outcome β ts.length}
    (hp : Follows s n (Reader.of g) x) (hk : ∀ v, ∀ m < n, Follows s m (k v) (f v)) :
    Follows s n (Parser.Reader.andThen (Reader.of g) k) (x >>= f) := by
  refine hp.andThen_of (fun i j v hn hreach hres => ?_)
  have hshort := Parser.Reader.shorter_of hres
  rw [List.length_drop, List.length_drop] at hshort
  exact (hk v (n - 1) (by omega)).tracks hreach.inRange (by omega)

/-- A token of the given kind is insisted on. -/
theorem expectWith [Passable kind] {k : Span → Reader α} {f : Span → Walk α}
    (hyes : ∀ v i span, v[i]? = some ⟨kind, span⟩ → i + 1 < v.length → y v i = f span v (i + 1))
    (hno : ∀ v i t, v[i]? = some t → t.kind ≠ kind →
      y v i = some (.error (.rejected ⟨e.describe, t.kind.text, t.span⟩), i))
    (h : ∀ span, ∀ m < n, Follows s m (k span) (f span)) :
    Follows s n (Parser.Reader.andThen (Reader.of (Parser.expect kind e)) k) y := by
  rw [Parser.Reader.expect_andThen]
  intro t
  by_cases ht : t.kind = kind
  · subst ht
    exact .take (fun v i => hyes v i t.span) Passable.ne_eof (if_pos rfl) (h t.span)
  · refine .pass (if_neg ht) (.of_eq (fun v i hv => ?_) (Follows.fail t))
    rw [hno v i t hv ht, reject_eq hv]

/-- An expected token, with fewer tokens behind it. -/
theorem expect [Passable kind] {k : Span → Reader α} (h : ∀ span, ∀ m < n, Follows s m (k span) y) :
    Follows s n (Parser.Reader.andThen (Reader.of (Parser.expect kind e)) k)
      (Cursor.expect kind e.describe >>= fun _ => y) :=
  expectWith (fun _ _ _ hv hlt => bind_of_ok (expect_eq_ok hv hlt rfl))
    (fun _ _ _ hv hne => bind_of_error (expect_eq_error hv hne)) h

/-- The place of the token is looked up in front of it. -/
theorem expectAt [Passable kind] {k : Span → Reader α} {f : Span → Walk α}
    (h : ∀ span, ∀ m < n, Follows s m (k span) (f span)) :
    Follows s n (Parser.Reader.andThen (Reader.of (Parser.expect kind e)) k)
      (currentSpan >>= fun stop => Cursor.expect kind e.describe >>= fun _ => f stop) := by
  refine expectWith (fun v i span hv hlt => ?_) (fun v i t hv hne => ?_) h
  · exact (bind_of_ok (currentSpan_eq hv)).trans (bind_of_ok (expect_eq_ok hv hlt rfl))
  · exact (bind_of_ok (currentSpan_eq hv)).trans (bind_of_error (expect_eq_error hv hne))

/-- The place of the token is looked up behind it. -/
theorem expectBehind [Passable kind] {k : Span → Reader α} {f : Span → Walk α}
    (h : ∀ span, ∀ m < n, Follows s m (k span) (f span)) :
    Follows s n (Parser.Reader.andThen (Reader.of (Parser.expect kind e)) k)
      (Cursor.expect kind e.describe >>= fun _ => previousSpan >>= f) := by
  refine expectWith (fun v i span hv hlt => ?_) (fun v i t hv hne => ?_) h
  · exact (bind_of_ok (expect_eq_ok hv hlt rfl)).trans (bind_of_ok (previousSpan_eq hv))
  · exact bind_of_error (expect_eq_error hv hne)

/-- An expected name, with fewer tokens behind it. -/
theorem expectIdentifier {k : Ident → Reader α} {f : Ident → Walk α}
    (h : ∀ name, ∀ m < n, Follows s m (k name) (f name)) :
    Follows s n (Parser.Reader.andThen (Reader.of Parser.identifier) k)
      (Cursor.expectIdentifier >>= f) := by
  rw [Parser.Reader.identifier_andThen]
  rintro ⟨kind, span⟩
  cases kind with
  | ident name => exact .expectIdentifier rfl (h ⟨name, span⟩)
  | _ =>
      refine .pass rfl (.of_eq (fun v i hv => ?_) (Follows.fail _))
      rw [Cursor.expectIdentifier, bind_assoc, bind_of_ok (peekKind_eq hv), reject_eq hv]
      exact bind_of_error (reject_eq hv)

/-- A type, of which a walk may or may not look up the place. -/
theorem typeWith {k : Ty × Span → Reader α} {f : Ty → Span → Walk α}
    (hyes : ∀ v i t ty, v[i]? = some t → typeName v i = some (.ok ty, i + 1) →
      y v i = f ty t.span v (i + 1))
    (hno : ∀ v i e, typeName v i = some (.error e, i) → y v i = some (.error e, i))
    (h : ∀ ty span, ∀ m < n, Follows s m (k (ty, span)) (f ty span)) :
    Follows s n (Parser.Reader.andThen (Reader.of Parser.typeName) k) y := by
  rw [Parser.Reader.typeName_andThen]
  intro t
  rcases typeName_cases k t with ⟨ty, hkind, hon, hrun⟩ | ⟨hon, hrun⟩
  · exact .take (fun v i hv hlt => hyes v i t ty hv (hrun v i hv hlt)) hkind hon (h ty t.span)
  · refine .pass hon (.of_eq (fun v i hv => ?_) (Follows.fail t))
    rw [hno v i _ (hrun v i hv), reject_eq hv]

/-- An expected name of a type, with fewer tokens behind it. -/
theorem typeName {k : Ty × Span → Reader α} {f : Ty → Walk α}
    (h : ∀ ty span, ∀ m < n, Follows s m (k (ty, span)) (f ty)) :
    Follows s n (Parser.Reader.andThen (Reader.of Parser.typeName) k) (Cursor.typeName >>= f) :=
  typeWith (fun _ _ _ _ _ hrun => bind_of_ok hrun) (fun _ _ _ hrun => bind_of_error hrun) h

/-- The place of the type is looked up behind it. -/
theorem typeBehind {k : Ty × Span → Reader α} {f : Ty → Span → Walk α}
    (h : ∀ ty span, ∀ m < n, Follows s m (k (ty, span)) (f ty span)) :
    Follows s n (Parser.Reader.andThen (Reader.of Parser.typeName) k)
      (Cursor.typeName >>= fun ty => previousSpan >>= f ty) := by
  refine typeWith (fun v i t ty hv hrun => ?_) (fun _ _ _ hrun => bind_of_error hrun) h
  exact (bind_of_ok hrun).trans (bind_of_ok (previousSpan_eq hv))

/-- A branch on a kind, which the cursor asks for and then passes. -/
theorem matchToken [Passable kind] {k : Span → Reader α}
    (hyes : ∀ span, ∀ m < n, Follows s m (k span) y) (hno : Follows s n no z) :
    Follows s n (branch (on kind k) no)
      (Cursor.matchToken kind >>= fun found => if found = true then y else z) := by
  intro t
  by_cases ht : t.kind = kind
  · subst ht
    refine .take (fun v i hv hlt => ?_) Passable.ne_eof (if_pos rfl) (hyes t.span)
    exact bind_of_ok (matchToken_eq_true hv hlt rfl)
  · refine .pass (if_neg ht) (.of_eq (fun v i hv => ?_) (hno t))
    exact bind_of_ok (matchToken_eq_false hv ht)

/-- A token that is seen, and taken later. -/
theorem check {k : Span → Reader α}
    (hyes : ∀ span, FollowsAt s n ⟨kind, span⟩ (branch (on kind k) no) y) (hno : Follows s n no z) :
    Follows s n (branch (on kind k) no)
      (Cursor.check kind >>= fun found => if found = true then y else z) := by
  rintro ⟨kind', span⟩
  by_cases ht : kind' = kind
  · subst ht
    refine .of_eq (fun v i hv => ?_) (hyes span)
    rw [bind_of_ok (check_eq hv), if_pos (decide_eq_true rfl)]
  · refine .pass (if_neg ht) (.of_eq (fun v i hv => ?_) (hno _))
    rw [bind_of_ok (check_eq hv), if_neg (by simpa using ht)]

/-- A branch on an operator, which the cursor looks at and then passes. -/
theorem onOp {level : Token.Kind → Option BinOp} {k : BinOp → Reader α} {f : BinOp → Walk α}
    (hlevel : level .eof = none) (hyes : ∀ op, ∀ m < n, Follows s m (k op) (f op))
    (hno : Follows s n no z) :
    Follows s n (branch (onOp level k) no)
      (peekKind >>= fun kind =>
        match level kind with
        | none => z
        | some op => discard advance >>= fun _ => f op) := by
  intro t
  refine .peekKind ?_
  cases hop : level t.kind with
  | none =>
      refine .pass ?_ (hno t)
      rw [Parser.Reader.onOp, hop, Option.map_none]
  | some op =>
      refine .take (fun _ _ hv hlt => bind_of_ok (discard_advance_eq hv hlt)) (fun hkind => ?_) ?_ (hyes op)
      · rw [hkind, hlevel] at hop
        cases hop
      · rw [Parser.Reader.onOp, hop, Option.map_some]

end Follows

end Definitions

end Cursor
end TinyPascal
