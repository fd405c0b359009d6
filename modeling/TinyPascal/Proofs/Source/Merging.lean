import TinyPascal.Source.Span

/-!
# `Proofs.Source.Merging` — merging many spans

A node of a tree gets its span by merging spans that are merges themselves, and the shape of the tree says
how they are nested. This module shows that **the nesting does not matter**: a merge of merges depends on
the list of the spans at its leaves alone. It starts where the first of them starts, stops where the last
of them stops, and its line and column are those of the span that starts first, the leftmost one if several
do.

## Contents
- **Whole spans.** `Over spans whole` says what the merge of a list is, without merging. `Over.merge`: it is
  kept when two lists are put together. `Over.unique`.
- **Bracketings.** `Bracketing`, `Bracketing.value_over`.
- **Merges.** `merges_over`: the running merges of a list. `merge_leftmost_minimum`.
-/

namespace TinyPascal
namespace Span

/-! ## Whole spans -/

/-- **The merge of a list of spans**, field by field: the smallest start, the largest stop, and the place of
    the first span in the list that starts there. -/
structure Over (spans : List Span) (whole : Span) : Prop where
  start : (spans.map Span.start).min? = some whole.start
  stop : (spans.map Span.stop).max? = some whole.stop
  place : (spans.find? (fun s => s.start = whole.start)).map (fun s => (s.line, s.column)) =
    some (whole.line, whole.column)

/-- The smaller of two smallest numbers is the smallest of both lists. -/
theorem min?_append {xs ys : List Nat} {a b : Nat} (ha : xs.min? = some a) (hb : ys.min? = some b) :
    (xs ++ ys).min? = some (min a b) := by
  rw [List.min?_eq_some_iff] at ha hb ⊢
  refine ⟨?_, ?_⟩
  · by_cases hle : a ≤ b
    · rw [Nat.min_eq_left hle]
      exact List.mem_append_left _ ha.1
    · rw [Nat.min_eq_right (Nat.le_of_not_le hle)]
      exact List.mem_append_right _ hb.1
  · intro n hn
    rcases List.mem_append.mp hn with hn | hn
    · exact Nat.le_trans (Nat.min_le_left a b) (ha.2 n hn)
    · exact Nat.le_trans (Nat.min_le_right a b) (hb.2 n hn)

/-- The larger of two largest numbers is the largest of both lists. -/
theorem max?_append {xs ys : List Nat} {a b : Nat} (ha : xs.max? = some a) (hb : ys.max? = some b) :
    (xs ++ ys).max? = some (max a b) := by
  rw [List.max?_eq_some_iff] at ha hb ⊢
  refine ⟨?_, ?_⟩
  · by_cases hle : a ≤ b
    · rw [Nat.max_eq_right hle]
      exact List.mem_append_right _ hb.1
    · rw [Nat.max_eq_left (Nat.le_of_not_le hle)]
      exact List.mem_append_left _ ha.1
  · intro n hn
    rcases List.mem_append.mp hn with hn | hn
    · exact Nat.le_trans (ha.2 n hn) (Nat.le_max_left a b)
    · exact Nat.le_trans (hb.2 n hn) (Nat.le_max_right a b)

namespace Over

variable {spans spans' : List Span} {a b : Span}

theorem single (s : Span) : Over [s] s := by
  refine ⟨rfl, rfl, ?_⟩
  rw [List.find?_cons_of_pos (by simp)]
  rfl

/-- No member starts before the whole. -/
theorem start_le (h : Over spans a) {s : Span} (hs : s ∈ spans) : a.start ≤ s.start :=
  (List.min?_eq_some_iff.mp h.start).2 s.start (List.mem_map_of_mem hs)

/-- No member stops behind the whole. -/
theorem le_stop (h : Over spans a) {s : Span} (hs : s ∈ spans) : s.stop ≤ a.stop :=
  (List.max?_eq_some_iff.mp h.stop).2 s.stop (List.mem_map_of_mem hs)

/-- **Merging puts two lists together.** Where both start together, the place is that of the left one: it is
    found before any span of the right list. -/
theorem merge (ha : Over spans a) (hb : Over spans' b) : Over (spans ++ spans') (a.merge b) := by
  refine ⟨?_, ?_, ?_⟩
  · rw [List.map_append]
    exact min?_append ha.start hb.start
  · rw [List.map_append]
    exact max?_append ha.stop hb.stop
  · rw [List.find?_append]
    by_cases hlt : b.start < a.start
    · have hstart : (a.merge b).start = b.start := Nat.min_eq_right (Nat.le_of_lt hlt)
      have hleft : spans.find? (fun s => s.start = b.start) = none := by
        apply List.find?_eq_none.mpr
        intro s hs
        have hle := ha.start_le hs
        simp only [decide_eq_true_eq]
        omega
      have hplace : ((a.merge b).line, (a.merge b).column) = (b.line, b.column) := by
        simp only [Span.merge, if_pos hlt]
      rw [hstart, hleft, Option.none_or, hplace]
      exact hb.place
    · have hstart : (a.merge b).start = a.start := Nat.min_eq_left (Nat.le_of_not_lt hlt)
      have hplace : ((a.merge b).line, (a.merge b).column) = (a.line, a.column) := by
        simp only [Span.merge, if_neg hlt]
      obtain ⟨first, hfirst, hat⟩ := Option.map_eq_some_iff.mp ha.place
      rw [hstart, hfirst, Option.some_or, hplace]
      exact congrArg some hat

theorem unique (ha : Over spans a) (hb : Over spans b) : a = b := by
  have hstart : a.start = b.start := Option.some.inj (ha.start.symm.trans hb.start)
  have hstop : a.stop = b.stop := Option.some.inj (ha.stop.symm.trans hb.stop)
  have hplace := hb.place
  rw [← hstart] at hplace
  obtain ⟨hline, hcolumn⟩ := Prod.mk.inj (Option.some.inj (ha.place.symm.trans hplace))
  cases a
  cases b
  simp only at hstart hstop hline hcolumn
  rw [hstart, hstop, hline, hcolumn]

end Over

/-! ## Bracketings -/

/-- A way to nest merges: the spans stand at the leaves, in order. -/
inductive Bracketing where
  | span (s : Span)
  | merge (left right : Bracketing)
deriving DecidableEq, Repr

namespace Bracketing

/-- The spans that are merged, from left to right. -/
def spans : Bracketing → List Span
  | .span s => [s]
  | .merge left right => left.spans ++ right.spans

/-- What the merges come to. -/
def value : Bracketing → Span
  | .span s => s
  | .merge left right => left.value.merge right.value

/-- Nested merges come to the merge of the list. -/
theorem value_over (b : Bracketing) : Over b.spans b.value := by
  induction b with
  | span s => exact .single s
  | merge left right ihl ihr => exact ihl.merge ihr

/-- So all bracketings of a list come to the same span. -/
theorem value_eq (b : Bracketing) {whole : Span} (h : Over b.spans whole) : b.value = whole :=
  b.value_over.unique h

/-- Merging from left to right, onto `b`. -/
def onto (b : Bracketing) (rest : List Span) : Bracketing :=
  rest.foldl (fun b s => .merge b (.span s)) b

theorem spans_onto (b : Bracketing) (rest : List Span) : (b.onto rest).spans = b.spans ++ rest := by
  induction rest generalizing b with
  | nil => exact (List.append_nil _).symm
  | cons s rest ih =>
      calc (b.onto (s :: rest)).spans = b.spans ++ [s] ++ rest := ih (.merge b (.span s))
        _ = b.spans ++ s :: rest := (List.append_cons b.spans s rest).symm

theorem value_onto (b : Bracketing) (rest : List Span) :
    (b.onto rest).value = rest.foldl Span.merge b.value := by
  induction rest generalizing b with
  | nil => rfl
  | cons s rest ih => exact ih (.merge b (.span s))

end Bracketing

/-! ## Merges -/

theorem foldl_merge_over (first : Span) (rest : List Span) :
    Over (first :: rest) (rest.foldl Span.merge first) := by
  have hover := ((Bracketing.span first).onto rest).value_over
  rw [Bracketing.spans_onto, Bracketing.value_onto] at hover
  exact hover

/-- The `k`-th running merge is the fold over the spans up to the `k`-th one. -/
theorem getElem?_merges (first : Span) (rest : List Span) {k : Nat} (h : k ≤ rest.length) :
    (first.merges rest)[k]? = some ((rest.take k).foldl Span.merge first) := by
  induction rest generalizing first k with
  | nil =>
      obtain rfl : k = 0 := Nat.le_zero.mp h
      rfl
  | cons next more ih =>
      cases k with
      | zero => rfl
      | succ k => exact ih (first.merge next) (Nat.le_of_succ_le_succ h)

theorem merge_assoc (a b c : Span) : (a.merge b).merge c = a.merge (b.merge c) := by
  have hleft : Over [a, b, c] ((a.merge b).merge c) :=
    ((Over.single a).merge (.single b)).merge (.single c)
  have hright : Over [a, b, c] (a.merge (b.merge c)) :=
    (Over.single a).merge ((Over.single b).merge (.single c))
  exact hleft.unique hright

/-- **Merging is a leftmost-minimum fold.** Over a list of spans that is not empty, all ways to nest the
    merges come to the same span: it starts where the first of them starts, stops where the last one stops,
    has the line and column of the first span in the list that starts there, and covers every member. The
    running merges of the list are these spans for the lists up to each of its members. So merging is
    associative, and merging a span with itself gives the span. -/
theorem merge_leftmost_minimum (first : Span) (rest : List Span) :
    (∃ whole, Over (first :: rest) whole ∧
      (∃ b : Bracketing, b.spans = first :: rest) ∧
      (∀ b : Bracketing, b.spans = first :: rest → b.value = whole) ∧
      ∀ s ∈ first :: rest, whole.start ≤ s.start ∧ s.stop ≤ whole.stop) ∧
    (∀ k ≤ rest.length, ∃ part, (first.merges rest)[k]? = some part ∧
      Over (first :: rest.take k) part ∧
      ∀ b : Bracketing, b.spans = first :: rest.take k → b.value = part) ∧
    (∀ a b c : Span, (a.merge b).merge c = a.merge (b.merge c)) ∧
    ∀ a : Span, a.merge a = a := by
  refine ⟨⟨rest.foldl Span.merge first, foldl_merge_over first rest, ?_, ?_, ?_⟩, ?_, merge_assoc,
    merge_self⟩
  · exact ⟨(Bracketing.span first).onto rest, Bracketing.spans_onto _ rest⟩
  · intro b hb
    exact b.value_eq (hb ▸ foldl_merge_over first rest)
  · intro s hs
    have hover := foldl_merge_over first rest
    exact ⟨hover.start_le hs, hover.le_stop hs⟩
  · intro k hk
    have hover := foldl_merge_over first (rest.take k)
    refine ⟨_, getElem?_merges first rest hk, hover, ?_⟩
    intro b hb
    exact b.value_eq (hb ▸ hover)

/-- Three spans, of which the last two start together and before the first; nested to the right, they come
    to a span with the place of the second. -/
theorem merge_leftmost_minimum_tied :
    ∃ whole, Over [⟨7, 8, 1, 8⟩, ⟨2, 5, 3, 1⟩, ⟨2, 9, 4, 1⟩] whole ∧
      (Span.mk 7 8 1 8).merge ((Span.mk 2 5 3 1).merge ⟨2, 9, 4, 1⟩) = whole ∧
      ((Span.mk 7 8 1 8).merge ⟨2, 5, 3, 1⟩).merge ⟨2, 9, 4, 1⟩ = whole ∧
      whole = ⟨2, 9, 3, 1⟩ := by
  obtain ⟨⟨whole, hover, _, hvalue, _⟩, _⟩ :=
    merge_leftmost_minimum ⟨7, 8, 1, 8⟩ [⟨2, 5, 3, 1⟩, ⟨2, 9, 4, 1⟩]
  have hright := hvalue (.merge (.span _) (.merge (.span _) (.span _))) rfl
  have hleft := hvalue (.merge (.merge (.span _) (.span _)) (.span _)) rfl
  exact ⟨whole, hover, hright, hleft, hright ▸ by decide⟩

end Span
end TinyPascal
