import Mathlib.Data.List.Nodup
import TinyPascal.Proofs.Code.Sections

/-!
# `Proofs.Code.Jumps` — jumps stay inside their section

Labels are handed out before the blocks of a statement are lowered and set behind them, and jumps out of
a loop take the labels of the loop around them. This module shows that all of it fits together: **every
jump finds its label once, in its own section, and jumps back only inside the code of a loop**.

## Contents
- **Labels and jumps.** `labelsOf`, `jumpsOf`: the labels that code sets, and those that it jumps to.
- **Jumping back.** `Backward ws code`: a jump to an earlier instruction goes to the start of a loop of
  `ws` whose code contains the jump.
- **Closed code.** `Closed loop ws code`: jumps lead to labels of the code or of the loop around it, and
  every label is used. `closed_lower`: lowered statements are closed.
- **Programs.** `JumpsClosed`, `codeWith_jumpsClosed`.
-/

namespace TinyPascal

/-! ## Labels and jumps -/

/-- The labels that code sets, in order. -/
def labelsOf (code : List Instr) : List Label :=
  code.filterMap Instr.defines?

/-- The labels that code jumps to, in order. -/
def jumpsOf (code : List Instr) : List Label :=
  code.filterMap Instr.target?

section Lists

variable {a b : List Instr} {l : Label}

@[simp] theorem labelsOf_nil : labelsOf [] = [] := rfl

@[simp] theorem jumpsOf_nil : jumpsOf [] = [] := rfl

@[simp] theorem labelsOf_append : labelsOf (a ++ b) = labelsOf a ++ labelsOf b :=
  List.filterMap_append

@[simp] theorem jumpsOf_append : jumpsOf (a ++ b) = jumpsOf a ++ jumpsOf b :=
  List.filterMap_append

theorem labelsOf_cons (i : Instr) : labelsOf (i :: a) = i.defines?.toList ++ labelsOf a := by
  cases h : i.defines? <;> simp [labelsOf, h]

theorem jumpsOf_cons (i : Instr) : jumpsOf (i :: a) = i.target?.toList ++ jumpsOf a := by
  cases h : i.target? <;> simp [jumpsOf, h]

theorem labelNumbers_eq (code : List Instr) : labelNumbers code = (labelsOf code).map labelNumber := by
  unfold labelNumbers labelsOf
  rw [List.map_filterMap]

theorem mem_labelsOf_of_getElem? {k : Nat} (h : a[k]? = some (.label l)) : l ∈ labelsOf a :=
  List.mem_filterMap.mpr ⟨_, List.mem_of_getElem? h, rfl⟩

theorem mem_jumpsOf_of_getElem? {j : Nat} {i : Instr} (h : a[j]? = some i)
    (hi : i.target? = some l) : l ∈ jumpsOf a :=
  List.mem_filterMap.mpr ⟨i, List.mem_of_getElem? h, hi⟩

end Lists

/-- New labels have new numbers. -/
theorem FreshLabels.number {lo hi : Nat} {code : List Instr} {l : Label} (h : FreshLabels lo hi code)
    (hl : l ∈ labelsOf code) : lo < labelNumber l ∧ labelNumber l ≤ hi := by
  apply h.range
  rw [labelNumbers_eq]
  exact List.mem_map.mpr ⟨l, hl, rfl⟩

/-- New labels differ from each other. -/
theorem FreshLabels.nodup_labels {lo hi : Nat} {code : List Instr} (h : FreshLabels lo hi code) :
    (labelsOf code).Nodup := by
  have hnumbers := h.nodup
  rw [labelNumbers_eq] at hnumbers
  exact List.Pairwise.of_map labelNumber (fun _ _ hne he => hne (congrArg labelNumber he)) hnumbers

mutual

/-- Expressions are straight-line code. -/
theorem jumpsOf_lower : ∀ (e : Expr) (k : Nat), jumpsOf (e.lower k).code = []
  | .int _ _, _ | .bool _ _, _ | .var _ _, _ => rfl
  | .paren inner _, k => jumpsOf_lower inner k
  | .not operand _, k => by
      simp only [Expr.lower, jumpsOf_append, jumpsOf_lower operand k]
      rfl
  | .binary _ left right _, k => by
      simp only [Expr.lower, jumpsOf_append, jumpsOf_lower left k, jumpsOf_lower right _]
      rfl
  | .call _ args _, k => by
      simp only [Expr.lower, jumpsOf_append, jumpsOf_lowerArgs args k]
      rfl

/-- Arguments do not jump. -/
theorem jumpsOf_lowerArgs : ∀ (es : List Expr) (k : Nat), jumpsOf (lowerArgs es k).code = []
  | [], _ => rfl
  | e :: es, k => by
      simp only [lowerArgs, jumpsOf_append, jumpsOf_lower e k, jumpsOf_lowerArgs es _,
        List.append_nil]

end

theorem jumpsOf_lowerPrints (es : List Expr) (k : Nat) : jumpsOf (lowerPrints es k).code = [] := by
  induction es generalizing k with
  | nil => rfl
  | cons e es ih =>
      simp only [lowerPrints, jumpsOf_append, jumpsOf_lower, ih]
      rfl

/-- Code without label numbers has no labels. -/
theorem labelsOf_eq_nil {code : List Instr} (h : labelNumbers code = []) : labelsOf code = [] := by
  rw [labelNumbers_eq, List.map_eq_nil_iff] at h
  exact h

theorem labelsOf_lower (e : Expr) (k : Nat) : labelsOf (e.lower k).code = [] :=
  labelsOf_eq_nil (labelNumbers_lower e k)

section Layouts

variable (cond : Expr) (k : Nat) (yes no body : List Instr)

theorem labelsOf_ifThen (stop : Label) :
    labelsOf (Layout.ifThen (cond.lower k) stop body) = labelsOf body ++ [stop] := by
  simp [Layout.ifThen, labelsOf_lower, labelsOf_cons, Instr.defines?]

theorem jumpsOf_ifThen (stop : Label) :
    jumpsOf (Layout.ifThen (cond.lower k) stop body) = stop :: jumpsOf body := by
  simp [Layout.ifThen, jumpsOf_lower, jumpsOf_cons, Instr.target?]

/-- An `if` with `else` sets a label in front of each block and one behind them. -/
theorem labelsOf_ifElse (first second stop : Label) :
    labelsOf (Layout.ifElse (cond.lower k) first second stop yes no)
      = first :: (labelsOf yes ++ second :: (labelsOf no ++ [stop])) := by
  simp [Layout.ifElse, labelsOf_lower, labelsOf_cons, Instr.defines?]

/-- An `if` with `else` jumps to each of its blocks, and from the first one behind the second. -/
theorem jumpsOf_ifElse (first second stop : Label) :
    jumpsOf (Layout.ifElse (cond.lower k) first second stop yes no)
      = first :: second :: (jumpsOf yes ++ stop :: jumpsOf no) := by
  simp [Layout.ifElse, jumpsOf_lower, jumpsOf_cons, Instr.target?]

/-- A loop sets a label in front of its condition and one behind its body. -/
theorem labelsOf_loop (l : Loop) :
    labelsOf (Layout.loop (cond.lower k) l body) = l.start :: (labelsOf body ++ [l.stop]) := by
  simp [Layout.loop, labelsOf_lower, labelsOf_cons, Instr.defines?]

/-- A loop jumps behind its body, and from there to its condition. -/
theorem jumpsOf_loop (l : Loop) :
    jumpsOf (Layout.loop (cond.lower k) l body) = l.stop :: (jumpsOf body ++ [l.start]) := by
  simp [Layout.loop, jumpsOf_lower, jumpsOf_cons, Instr.target?]

end Layouts

/-! ## Jumping back -/

/-- `part` is code of the loop `w`, and starts with the label `l`. -/
def IsLoopCode (w : Stmt) (l : Label) (part : List Instr) : Prop :=
  ∃ cond body span loop s s', w = .while cond body span ∧ w.lower loop s = .ok part s' ∧
    l = labelName "L_while_start_" (s.labels + 1)

/-- **Jumping back.** If an instruction of the code jumps to an earlier one, it goes to the start of a
    loop of `ws`, and stands in the code of that loop. -/
def Backward (ws : List Stmt) (code : List Instr) : Prop :=
  ∀ j k i l, code[j]? = some i → i.target? = some l → code[k]? = some (.label l) → k < j →
    ∃ w ∈ ws, ∃ part, IsLoopCode w l part ∧ part <+: code.drop k ∧ j < k + part.length

namespace Backward

variable {ws ws' : List Stmt} {a b : List Instr} {i : Instr}

theorem mono (h : Backward ws a) (hsub : ws ⊆ ws') : Backward ws' a := by
  intro j k i l hj hi hk hlt
  obtain ⟨w, hw, part, hpart⟩ := h j k i l hj hi hk hlt
  exact ⟨w, hsub hw, part, hpart⟩

theorem of_labels_nil (h : labelsOf a = []) : Backward ws a := by
  intro j k i l _ _ hk _
  have hl := mem_labelsOf_of_getElem? hk
  rw [h] at hl
  cases hl

theorem of_jumps_nil (h : jumpsOf a = []) : Backward ws a := by
  intro j k i l hj hi _ _
  have hl := mem_jumpsOf_of_getElem? hj hi
  rw [h] at hl
  cases hl

/-- Code in a row, where the second part does not jump back to the first. -/
theorem append (ha : Backward ws a) (hb : Backward ws b)
    (hno : ∀ l ∈ labelsOf a, l ∉ jumpsOf b) : Backward ws (a ++ b) := by
  intro j k i l hj hi hk hlt
  by_cases hja : j < a.length
  · -- both stand in the first part
    rw [List.getElem?_append_left hja] at hj
    rw [List.getElem?_append_left (by omega)] at hk
    obtain ⟨w, hw, part, hcode, hpart, hin⟩ := ha j k i l hj hi hk hlt
    refine ⟨w, hw, part, hcode, ?_, hin⟩
    rw [List.drop_append_of_le_length (by omega)]
    exact hpart.trans (List.prefix_append _ _)
  · rw [List.getElem?_append_right (by omega)] at hj
    by_cases hka : k < a.length
    · rw [List.getElem?_append_left hka] at hk
      have hl := hno l (mem_labelsOf_of_getElem? hk)
      exact absurd (mem_jumpsOf_of_getElem? hj hi) hl
    · -- both stand in the second part
      rw [List.getElem?_append_right (by omega)] at hk
      obtain ⟨w, hw, part, hcode, hpart, hin⟩ := hb _ _ i l hj hi hk (by omega)
      refine ⟨w, hw, part, hcode, ?_, by omega⟩
      rw [List.drop_append, List.drop_eq_nil_of_le (by omega), List.nil_append]
      exact hpart

/-- A label that nothing behind it jumps to, or an instruction that sets none, in front of code. -/
theorem cons (hb : Backward ws b) (hno : ∀ l, i.defines? = some l → l ∉ jumpsOf b) :
    Backward ws (i :: b) := by
  have hone : Backward ws [i] := by
    intro j k i' l hj _ _ hlt
    have hbound := (List.getElem?_eq_some_iff.mp hj).1
    rw [List.length_singleton] at hbound
    omega
  refine append hone hb (fun l hl => hno l ?_)
  simpa [labelsOf_cons] using hl

/-- Code behind which a label is set, or nothing is jumped to. -/
theorem snoc (ha : Backward ws a) (h : i.target? = none) : Backward ws (a ++ [i]) := by
  have hjumps : jumpsOf [i] = [] := by simp [jumpsOf_cons, h]
  refine append ha (of_jumps_nil hjumps) ?_
  rw [hjumps]
  exact fun _ _ => List.not_mem_nil

/-- Code behind other code that sets no labels. -/
theorem behind (hb : Backward ws b) (h : labelsOf a = []) : Backward ws (a ++ b) := by
  refine append (of_labels_nil h) hb ?_
  rw [h]
  exact fun _ hl => absurd hl List.not_mem_nil

section Layouts

variable {cond : Expr} {k : Nat} {yes no body : List Instr}

/-- An `if` without `else` only jumps forward by itself. -/
theorem ifThen {stop : Label} (h : Backward ws body) :
    Backward ws (Layout.ifThen (cond.lower k) stop body) := by
  have hbody : Backward ws (body ++ [.label stop]) := h.snoc rfl
  have htest : Backward ws (.ifNotGoto (cond.lower k).result stop :: (body ++ [.label stop])) :=
    hbody.cons (fun l hl => by cases hl)
  exact htest.behind (labelsOf_lower cond k)

/-- An `if` with `else` only jumps forward by itself, and no block jumps into the other. -/
theorem ifElse {first second stop : Label} (ha : Backward ws yes) (hb : Backward ws no)
    (hfirst : first ∉ jumpsOf yes ++ stop :: jumpsOf no)
    (hyes : ∀ l ∈ labelsOf yes, l ∉ stop :: jumpsOf no) (hsecond : second ∉ jumpsOf no) :
    Backward ws (Layout.ifElse (cond.lower k) first second stop yes no) := by
  have hno : Backward ws (.label second :: (no ++ [.label stop])) := by
    refine (hb.snoc rfl).cons (fun l hl => ?_)
    cases hl
    simpa [jumpsOf_cons, Instr.target?] using hsecond
  have hskip : Backward ws (.goto stop :: .label second :: (no ++ [.label stop])) :=
    hno.cons (fun l hl => by cases hl)
  have hjumps : jumpsOf (.goto stop :: .label second :: (no ++ [.label stop]))
      = stop :: jumpsOf no := by
    simp [jumpsOf_cons, Instr.target?]
  have hblocks := ha.append hskip (by rw [hjumps]; exact hyes)
  have hlabelled := hblocks.cons (i := .label first) (fun l hl => by
    cases hl
    rw [jumpsOf_append, hjumps]
    exact hfirst)
  have hgoto := hlabelled.cons (i := .goto second) (fun l hl => by cases hl)
  have htest := hgoto.cons (i := .ifGoto (cond.lower k).result first) (fun l hl => by cases hl)
  exact htest.behind (labelsOf_lower cond k)

/-- The code of a loop jumps back to its own start, and otherwise only as its body does. -/
theorem loop {l : Loop} {w : Stmt} (h : Backward ws body) (hstart : l.start ∉ labelsOf body)
    (hw : w ∈ ws) (hcode : IsLoopCode w l.start (Layout.loop (cond.lower k) l body)) :
    Backward ws (Layout.loop (cond.lower k) l body) := by
  -- behind its first label the code is straight but for the body
  have hinner : Backward ws ((cond.lower k).code ++ .ifNotGoto (cond.lower k).result l.stop ::
      (body ++ [.goto l.start, .label l.stop])) := by
    have hend : Backward ws [.goto l.start, .label l.stop] :=
      (of_jumps_nil rfl : Backward ws [.label l.stop]).cons (fun l hl => by cases hl)
    have hbody := h.append hend (fun l' hl' hjump => hstart (by
      simp only [jumpsOf, List.filterMap_cons, Instr.target?, List.filterMap_nil,
        List.mem_singleton] at hjump
      rwa [← hjump]))
    have htest := hbody.cons (i := .ifNotGoto (cond.lower k).result l.stop) (fun l hl => by cases hl)
    exact htest.behind (labelsOf_lower cond k)
  intro j m i l' hj hi hm hlt
  cases m with
  | zero =>
      have hl' : l' = l.start := by
        simp only [Layout.loop, List.getElem?_cons_zero, Option.some.injEq, Instr.label.injEq] at hm
        exact hm.symm
      subst hl'
      refine ⟨w, hw, _, hcode, List.prefix_rfl, ?_⟩
      have hbound := (List.getElem?_eq_some_iff.mp hj).1
      omega
  | succ m =>
      cases j with
      | zero => omega
      | succ j =>
          obtain ⟨w', hw', part, hpart, hprefix, hin⟩ := hinner j m i l' hj hi hm (by omega)
          exact ⟨w', hw', part, hpart, hprefix, by omega⟩

end Layouts

end Backward

/-! ## Closed code -/

/-- The labels of the loop around a statement. -/
def outerLabels : Option Loop → List Label
  | none => []
  | some l => [l.start, l.stop]

/-- **Closed code.** Jumps lead to labels of the code itself or of the loop around it, every label is
    used, and the code jumps back only inside the loops of `ws`. -/
structure Closed (loop : Option Loop) (ws : List Stmt) (code : List Instr) : Prop where
  targets : ∀ l ∈ jumpsOf code, l ∈ labelsOf code ∨ l ∈ outerLabels loop
  used : ∀ l ∈ labelsOf code, l ∈ jumpsOf code
  backward : Backward ws code

namespace Closed

variable {around : Option Loop} {ws ws' : List Stmt} {a b yes no body : List Instr}
  {lo mid hi n : Nat} {l : Label}

/-- Code without labels and jumps. -/
theorem straight (hl : labelsOf a = []) (hj : jumpsOf a = []) : Closed around ws a := by
  refine ⟨?_, ?_, .of_labels_nil hl⟩
  · rw [hj]
    exact fun _ h => absurd h List.not_mem_nil
  · rw [hl]
    exact fun _ h => absurd h List.not_mem_nil

/-- A jump out of the code. -/
theorem goto (hl : l ∈ outerLabels around) : Closed around ws [.goto l] := by
  refine ⟨fun l' hl' => ?_, fun l' hl' => ?_, .of_labels_nil rfl⟩
  · simp only [jumpsOf_cons, Instr.target?, Option.toList_some, jumpsOf_nil, List.append_nil,
      List.mem_singleton] at hl'
    exact .inr (hl' ▸ hl)
  · cases hl'

theorem mono (h : Closed around ws a) (hsub : ws ⊆ ws') : Closed around ws' a :=
  ⟨h.targets, h.used, h.backward.mono hsub⟩

/-- Closed code jumps to labels of its own, or to ones that were there before. -/
theorem number (h : Closed around ws a) (hf : FreshLabels lo hi a)
    (hold : ∀ l ∈ outerLabels around, labelNumber l ≤ n) (hl : l ∈ jumpsOf a) :
    labelNumber l ≤ n ∨ lo < labelNumber l ∧ labelNumber l ≤ hi := by
  rcases h.targets l hl with hown | houter
  · exact .inr (hf.number hown)
  · exact .inl (hold l houter)

/-- **Closed code in a row is closed**: the labels of the two pieces have different numbers. -/
theorem append (ha : Closed around ws a) (hold : ∀ l ∈ outerLabels around, labelNumber l ≤ lo)
    (hb : Closed around ws' b) (fa : FreshLabels lo mid a) (fb : FreshLabels mid hi b) :
    Closed around (ws ++ ws') (a ++ b) := by
  refine ⟨fun l hl => ?_, fun l hl => ?_, ?_⟩
  · rw [jumpsOf_append, List.mem_append] at hl
    rw [labelsOf_append, List.mem_append]
    rcases hl with hl | hl
    · rcases ha.targets l hl with h | h
      · exact .inl (.inl h)
      · exact .inr h
    · rcases hb.targets l hl with h | h
      · exact .inl (.inr h)
      · exact .inr h
  · rw [labelsOf_append, List.mem_append] at hl
    rw [jumpsOf_append, List.mem_append]
    exact hl.imp (ha.used l) (hb.used l)
  · refine (ha.backward.mono (List.subset_append_left _ _)).append
      (hb.backward.mono (List.subset_append_right _ _)) (fun l hl hjump => ?_)
    have hown := fa.number hl
    have hother := hb.number fb hold hjump
    omega

section Layouts

variable {cond : Expr} {k : Nat}

/-- An `if` without `else` closes its own jump. -/
theorem ifThen {stop : Label} (h : Closed around ws body) :
    Closed around ws (Layout.ifThen (cond.lower k) stop body) := by
  refine ⟨fun l hl => ?_, fun l hl => ?_, h.backward.ifThen⟩
  · rw [jumpsOf_ifThen, List.mem_cons] at hl
    rw [labelsOf_ifThen, List.mem_append, List.mem_singleton]
    rcases hl with rfl | hl
    · exact .inl (.inr rfl)
    · exact (h.targets l hl).imp_left .inl
  · rw [labelsOf_ifThen, List.mem_append, List.mem_singleton] at hl
    rw [jumpsOf_ifThen, List.mem_cons]
    rcases hl with hl | rfl
    · exact .inr (h.used l hl)
    · exact .inl rfl

/-- An `if` with `else` closes its own jumps. -/
theorem ifElse (hold : ∀ l ∈ outerLabels around, labelNumber l ≤ lo) (ha : Closed around ws yes)
    (hb : Closed around ws' no) (fa : FreshLabels (lo + 3) mid yes) (fb : FreshLabels mid hi no) :
    Closed around (ws ++ ws') (Layout.ifElse (cond.lower k) (labelName "L_then_" (lo + 1))
      (labelName "L_else_" (lo + 2)) (labelName "L_end_" (lo + 3)) yes no) := by
  have hfirst := labelNumber_labelName (show IsStem "L_then_" by decide) (lo + 1)
  have hsecond := labelNumber_labelName (show IsStem "L_else_" by decide) (lo + 2)
  have hstop := labelNumber_labelName (show IsStem "L_end_" by decide) (lo + 3)
  have hle := fa.le
  refine ⟨fun l hl => ?_, fun l hl => ?_, ?_⟩
  · rw [jumpsOf_ifElse] at hl
    rw [labelsOf_ifElse]
    have hyes := ha.targets l
    have hno := hb.targets l
    simp only [List.mem_cons, List.mem_append, List.not_mem_nil, or_false] at hl ⊢
    grind
  · rw [labelsOf_ifElse] at hl
    rw [jumpsOf_ifElse]
    have hyes := ha.used l
    have hno := hb.used l
    simp only [List.mem_cons, List.mem_append, List.not_mem_nil, or_false] at hl ⊢
    grind
  · -- the labels of the construct are older than those of its blocks, and newer than the loop
    have hyes := fun l hl => ha.number (l := l) fa hold hl
    have hno := fun l hl => hb.number (l := l) fb hold hl
    refine Backward.ifElse (ha.backward.mono (List.subset_append_left _ _))
      (hb.backward.mono (List.subset_append_right _ _)) ?_ ?_ ?_
    · intro hl
      rcases List.mem_append.mp hl with hl | hl
      · have := hyes _ hl
        omega
      · rcases List.mem_cons.mp hl with heq | hl
        · have := congrArg labelNumber heq
          omega
        · have := hno _ hl
          omega
    · intro l hl hjump
      have hown := fa.number hl
      rcases List.mem_cons.mp hjump with rfl | hjump
      · omega
      · have := hno _ hjump
        omega
    · intro hl
      have := hno _ hl
      omega

/-- A loop closes its own jumps and those of its body to it. -/
theorem loop {w : Stmt} (h : Closed (some (.fresh lo)) ws body) (hf : FreshLabels (lo + 2) hi body)
    (hw : w ∈ ws')
    (hcode : IsLoopCode w (Loop.fresh lo).start (Layout.loop (cond.lower k) (.fresh lo) body))
    (hsub : ws ⊆ ws') :
    Closed around ws' (Layout.loop (cond.lower k) (.fresh lo) body) := by
  refine ⟨fun l hl => ?_, fun l hl => ?_, ?_⟩
  · rw [jumpsOf_loop] at hl
    rw [labelsOf_loop]
    have hbody := h.targets l
    simp only [outerLabels, List.mem_cons, List.mem_append, List.not_mem_nil, or_false] at hl hbody ⊢
    grind
  · rw [labelsOf_loop] at hl
    rw [jumpsOf_loop]
    have hbody := h.used l
    simp only [List.mem_cons, List.mem_append, List.not_mem_nil, or_false] at hl ⊢
    grind
  · refine (h.backward.mono hsub).loop (fun hl => ?_) hw hcode
    have hown := hf.number hl
    have hstart : labelNumber (Loop.fresh lo).start = lo + 1 :=
      labelNumber_labelName (show IsStem "L_while_start_" by decide) (lo + 1)
    omega

end Layouts

end Closed

/-- The labels of a loop are as old as the code behind them. -/
theorem outerLabels_fresh (n : Nat) :
    ∀ l ∈ outerLabels (some (Loop.fresh n)), labelNumber l ≤ n + 2 := by
  intro l hl
  have hstart : labelNumber (Loop.fresh n).start = n + 1 :=
    labelNumber_labelName (show IsStem "L_while_start_" by decide) (n + 1)
  have hstop : labelNumber (Loop.fresh n).stop = n + 2 :=
    labelNumber_labelName (show IsStem "L_while_end_" by decide) (n + 2)
  simp only [outerLabels, List.mem_cons, List.not_mem_nil, or_false] at hl
  rcases hl with rfl | rfl <;> omega

mutual

/-- **Lowered statements are closed.** The induction is over the statement; the labels of the loop around
    it were handed out before. -/
theorem closed_lower : ∀ (st : Stmt) {loop : Option Loop} {s s' : Supply} {code : List Instr},
    st.lower loop s = .ok code s' → (∀ l ∈ outerLabels loop, labelNumber l ≤ s.labels) →
    Closed loop (st :: st.nested) code
  | .assign target value _, loop, s, s', code, h, _ => by
      rw [lower_assign] at h
      cases h
      refine .straight ?_ ?_
      · simp [labelsOf_lower, labelsOf_cons, Instr.defines?]
      · simp [jumpsOf_lower, jumpsOf_cons, Instr.target?]
  | .call callee args _, loop, s, s', code, h, _ => by
      rw [lower_call] at h
      cases h
      exact .straight (labelsOf_lower _ _) (jumpsOf_lower _ _)
  | .return none _, loop, s, s', code, h, _ => by
      rw [lower_return_none] at h
      cases h
      exact .straight rfl rfl
  | .return (some value) _, loop, s, s', code, h, _ => by
      rw [lower_return_some] at h
      cases h
      refine .straight ?_ ?_
      · simp [labelsOf_lower, labelsOf_cons, Instr.defines?]
      · simp [jumpsOf_lower, jumpsOf_cons, Instr.target?]
  | .ifThen cond yes span, loop, s, s', code, h, hold => by
      obtain ⟨body, hb, rfl⟩ := lower_ifThen_eq_ok h
      have hbody := closed_lower_block yes hb
        (fun l hl => Nat.le_add_right_of_le (hold l hl))
      exact (hbody.mono (List.subset_cons_self _ _)).ifThen
  | .ifElse cond yes no span, loop, s, s', code, h, hold => by
      obtain ⟨a, s₁, b, ha, hb, rfl⟩ := lower_ifElse_eq_ok h
      have fa := freshLabels_lower_block yes ha
      have fb := freshLabels_lower_block no hb
      have hyes := closed_lower_block yes ha (fun l hl => Nat.le_add_right_of_le (hold l hl))
      have hno := closed_lower_block no hb
        (fun l hl => Nat.le_trans (Nat.le_add_right_of_le (hold l hl)) fa.le)
      exact (Closed.ifElse hold hyes hno fa fb).mono (List.subset_cons_self _ _)
  | .while cond body span, loop, s, s', code, h, _ => by
      obtain ⟨a, ha, hcode⟩ := lower_while_eq_ok h
      have hbody := closed_lower_block body ha (outerLabels_fresh s.labels)
      have hloop : IsLoopCode (.while cond body span) (Loop.fresh s.labels).start code :=
        ⟨cond, body, span, loop, s, s', rfl, h, rfl⟩
      rw [hcode] at hloop ⊢
      exact hbody.loop (freshLabels_lower_block body ha) List.mem_cons_self hloop
        (List.subset_cons_self _ _)
  | .break _, none, s, s', code, h, _ => by cases h
  | .break _, some l, s, s', code, h, _ => by
      cases h
      exact .goto (by simp [outerLabels])
  | .continue _, none, s, s', code, h, _ => by cases h
  | .continue _, some l, s, s', code, h, _ => by
      cases h
      exact .goto (by simp [outerLabels])
  | .write args _, loop, s, s', code, h, _ => by
      rw [lower_write] at h
      cases h
      exact .straight (labelsOf_eq_nil (labelNumbers_lowerPrints _ _)) (jumpsOf_lowerPrints _ _)

/-- The code of a block is closed. -/
theorem closed_lower_block : ∀ (b : Block) {loop : Option Loop} {s s' : Supply} {code : List Instr},
    b.lower loop s = .ok code s' → (∀ l ∈ outerLabels loop, labelNumber l ≤ s.labels) →
    Closed loop b.stmts code
  | ⟨statements, _⟩, _, _, _, _, h, hold => closed_lowerAll statements h hold

/-- The code of statements in a row is closed. -/
theorem closed_lowerAll : ∀ (ss : List Stmt) {loop : Option Loop} {s s' : Supply}
    {code : List Instr}, lowerAll loop ss s = .ok code s' →
    (∀ l ∈ outerLabels loop, labelNumber l ≤ s.labels) → Closed loop (stmtsOf ss) code
  | [], loop, s, s', code, h, _ => by
      cases h
      exact .straight rfl rfl
  | first :: more, loop, s, s', code, h, hold => by
      obtain ⟨a, s₁, b, ha, hb, rfl⟩ := lowerAll_cons_eq_ok h
      have fa := freshLabels_lower first ha
      have hmore := closed_lowerAll more hb (fun l hl => Nat.le_trans (hold l hl) fa.le)
      exact (closed_lower first ha hold).append hold hmore fa (freshLabels_lowerAll more hb)

end

/-! ## Programs -/

/-- The code of a program sets new labels only, and is closed. -/
theorem closed_lower_program {p : Program} {s s' : Supply} {code : List Instr}
    (h : p.lower s = .ok code s') :
    FreshLabels s.labels s'.labels code ∧ Closed none p.stmts code := by
  refine lower_program_rec (P := fun bs s s' code =>
    FreshLabels s.labels s'.labels code ∧ Closed none (bs.flatMap Block.stmts) code) ?_ ?_ ?_ ?_ h
  · exact fun s => ⟨.of_nil rfl, .straight rfl rfl⟩
  · intro s i hi
    cases i with
    | decl _ _ | sectionStart _ _ _ _ | sectionEnd _ _ => exact ⟨.of_nil rfl, .straight rfl rfl⟩
    | _ => cases hi
  · intro bs bs' s s₁ s' a b ⟨fa, ha⟩ ⟨fb, hb⟩
    rw [List.flatMap_append]
    exact ⟨fa.append fb, ha.append (fun _ hl => absurd hl List.not_mem_nil) hb fa fb⟩
  · intro b s s' code hb
    rw [List.flatMap_singleton]
    exact ⟨freshLabels_lower_block b hb,
      closed_lower_block b hb (fun _ hl => absurd hl List.not_mem_nil)⟩

/-- **Every jump is closed within its section.** -/
structure JumpsClosed (p : Program) (code : List Instr) : Prop where
  /-- Labels and jumps stand in sections. -/
  inside : code.filter Instr.isPlain = (sectionsOf code).flatMap CodeSection.body
  /-- No label is set twice. -/
  distinct : (labelsOf code).Nodup
  /-- A jump finds its label in its own section, and nowhere else. -/
  defined : ∀ sec ∈ sectionsOf code, ∀ l ∈ jumpsOf sec.body,
    l ∈ labelsOf sec.body ∧ (labelsOf code).count l = 1
  /-- Every label is jumped to. -/
  used : ∀ l ∈ labelsOf code, l ∈ jumpsOf code
  /-- Code jumps back only to the start of a loop, from inside the loop. -/
  backward : Backward p.stmts code

/-- **Lowered programs close their jumps**, whatever names were handed out before. -/
theorem codeWith_jumpsClosed (p : Program) (s s' : Supply) (code : List Instr)
    (h : p.codeWith s = (.ok code, s')) : JumpsClosed p code := by
  have hlower := codeWith_eq_ok h
  obtain ⟨hfresh, hclosed⟩ := closed_lower_program hlower
  obtain ⟨bodies, main, _, hbodies, hmain, hsections, hinside⟩ := sectionsOf_lower hlower
  refine ⟨hinside, hfresh.nodup_labels, fun sec hsec l hl => ?_, hclosed.used, hclosed.backward⟩
  have hsection : ∃ b : Block, b.LowersTo sec.body := by
    rw [hsections] at hsec
    rcases List.mem_append.mp hsec with hroutine | hlast
    · obtain ⟨rb, hrb, rfl⟩ := List.mem_map.mp hroutine
      exact ⟨_, hbodies rb hrb⟩
    · rw [List.mem_singleton] at hlast
      subst hlast
      exact ⟨_, hmain⟩
  obtain ⟨b, s₁, s₂, hb⟩ := hsection
  -- no loop surrounds a section, so its jumps lead to its own labels
  have hown : l ∈ labelsOf sec.body := by
    have htargets := closed_lower_block b hb (fun _ hl => absurd hl List.not_mem_nil)
    exact (htargets.targets l hl).resolve_right List.not_mem_nil
  refine ⟨hown, List.count_eq_one_of_mem hfresh.nodup_labels ?_⟩
  obtain ⟨i, hi, hdefines⟩ := List.mem_filterMap.mp hown
  have hplain : i ∈ code.filter Instr.isPlain := by
    rw [hinside]
    exact List.mem_flatMap.mpr ⟨sec, hsec, hi⟩
  exact List.mem_filterMap.mpr ⟨i, List.mem_of_mem_filter hplain, hdefines⟩

/-- A function with a loop that is left from two branches, called in a loop inside a loop. -/
def searching : Program :=
  let here : Span := ⟨0, 0, 1, 1⟩
  let id (x : String) : Ident := ⟨x, here⟩
  let k : Expr := .var "k" here
  let body : Block := ⟨[
    .while (.bool true here) ⟨[.ifElse (.binary .eq k (.int 0 here) here) ⟨[.break here], here⟩
      ⟨[.assign (id "k") (.binary .sub k (.int 1 here) here) here, .continue here], here⟩ here], here⟩
      here,
    .return (some k) here], here⟩
  let main : Block := ⟨[
    .while (.bool true here) ⟨[
      .while (.bool false here) ⟨[.continue here], here⟩ here,
      .ifThen (.binary .eq (.call (id "f") [.int 2 here] here) (.int 0 here) here)
        ⟨[.break here], here⟩ here], here⟩ here], here⟩
  ⟨[.routine ⟨id "f", [⟨[id "k"], .integer, here⟩], some .integer, body, here⟩], main, here⟩

/-- Nine labels were handed out before; number 19 is taken, but its label is never set. -/
theorem codeWith_jumpsClosed_searching :
    ∃ code s', searching.codeWith ⟨4, 9⟩ = (.ok code, s') ∧ JumpsClosed searching code ∧
      labelsOf code = ["L_while_start_10", "L_then_12", "L_else_13", "L_end_14", "L_while_end_11",
        "L_while_start_15", "L_while_start_17", "L_while_end_18", "L_end_20", "L_while_end_16"] := by
  have hrun : (searching.codeWith ⟨4, 9⟩).1.toOption.map labelsOf
      = some ["L_while_start_10", "L_then_12", "L_else_13", "L_end_14", "L_while_end_11",
        "L_while_start_15", "L_while_start_17", "L_while_end_18", "L_end_20", "L_while_end_16"] := by
    decide +kernel
  cases hcode : searching.codeWith ⟨4, 9⟩ with
  | mk result s' =>
      rw [hcode] at hrun
      obtain ⟨code, hresult, hlabels⟩ := Option.map_eq_some_iff.mp hrun
      have hok : result = .ok code := Except.eq_ok_of_toOption hresult
      subst hok
      exact ⟨code, s', rfl, codeWith_jumpsClosed _ _ _ _ hcode, hlabels⟩

end TinyPascal
