import Mathlib.Data.List.Nodup
import TinyPascal.Proofs.Code.Mirror
import TinyPascal.Proofs.Code.Temporaries

/-!
# `Proofs.Code.SingleUse` — every temporary is set once and read once

The value of an expression is computed by straight code and read by the instruction behind it. So a
temporary lives for a short time: it is **set once, read once, and read before anything but values is
computed**. Only the result of a call statement is read by nobody.

The proof keeps accounts. Code that leaves values for later is compared with a list of their places
(`Accounts left code`): a temporary is set as often as it is read or left. Reading takes a place off the
list, computing puts one on it, and at the end of a statement only results of calls are left.

## Contents
- **Places of code.** `writesOf`, `readsOf`: the places that code writes and reads, as often as it does.
- **Call statements.** `Stmt.callResults`: the temporaries with the results of call statements.
- **Nearby.** `SetNearby code`: what an instruction reads was set in front of it, with only values
  computed in between.
- **Accounts.** `Accounts left code`, one lemma for each way to put code together; `accounts_lower` for
  expressions.
- **Statements.** `Leaves left code`: all that is left are results of calls. `leaves_lower_stmt`,
  `leaves_lower_program`.
- **Programs.** `ReadAfter`, `temporaries_single_use`.
-/

namespace TinyPascal

/-! ## Places of code -/

/-- The places that code writes, one for each instruction that does. -/
def writesOf (code : List Instr) : List Place :=
  code.filterMap Instr.writes?

/-- The places that code reads, one for each operand. -/
def readsOf (code : List Instr) : List Place :=
  code.flatMap Instr.reads

@[simp] theorem readsOf_nil : readsOf [] = [] := rfl

@[simp] theorem readsOf_append (a b : List Instr) : readsOf (a ++ b) = readsOf a ++ readsOf b :=
  List.flatMap_append

@[simp] theorem readsOf_singleton (i : Instr) : readsOf [i] = i.reads :=
  List.flatMap_singleton Instr.reads i

theorem tempsOf_singleton (i : Instr) : tempsOf [i] = i.temp?.toList := by
  rw [tempsOf_cons, tempsOf_nil, List.append_nil]

/-- An instruction that sets a temporary writes it. -/
theorem Instr.writes?_of_temp? {i : Instr} {x : Place} (h : i.temp? = some x) : i.writes? = some x := by
  cases i <;> first | exact h | cases h

/-! ## Call statements -/

mutual

/-- The numbers of the temporaries with the results of the call statements, for code behind the `k`-th
    temporary. The result of a call is in the last temporary that the call takes. -/
def Stmt.callResults (k : Nat) : Stmt → List Nat
  | .call callee args span => [k + (Expr.call callee args span).tempCount]
  | .ifThen cond yes _ => yes.callResults (k + cond.tempCount)
  | .ifElse cond yes no _ =>
    yes.callResults (k + cond.tempCount)
      ++ no.callResults (k + cond.tempCount + tempCountOf yes.exprs)
  | .while cond body _ => body.callResults (k + cond.tempCount)
  | .assign _ _ _ | .return _ _ | .break _ | .continue _ | .write _ _ => []

def Block.callResults (k : Nat) : Block → List Nat
  | ⟨statements, _⟩ => callResultsOf k statements

def callResultsOf (k : Nat) : List Stmt → List Nat
  | [] => []
  | s :: more => s.callResults k ++ callResultsOf (k + tempCountOf s.exprs) more

end

/-- The results of the call statements of blocks that are lowered one after the other. -/
def callResultsIn (k : Nat) : List Block → List Nat
  | [] => []
  | b :: more => b.callResults k ++ callResultsIn (k + tempCountOf b.exprs) more

/-- The temporaries with the results of the call statements of a program. -/
def Program.callResults (p : Program) : List Place :=
  (callResultsIn 0 p.bodies).map tempName

/-- The results of call statements in some bodies, counted on over the bodies behind them. -/
theorem callResultsIn_append (k : Nat) (bs bs' : List Block) :
    callResultsIn k (bs ++ bs') =
      callResultsIn k bs ++ callResultsIn (k + tempCountOf (bs.flatMap Block.exprs)) bs' := by
  induction bs generalizing k with
  | nil => rfl
  | cons b bs ih =>
      rw [List.cons_append, callResultsIn, callResultsIn, ih, List.flatMap_cons, tempCountOf_append,
        List.append_assoc, Nat.add_assoc]

/-! ## Nearby -/

/-- Only values are computed: every instruction sets a temporary. -/
def Straight (code : List Instr) : Prop :=
  ∀ i ∈ code, i.temp?.isSome = true

theorem Straight.append {a b : List Instr} (ha : Straight a) (hb : Straight b) : Straight (a ++ b) :=
  List.forall_mem_append.mpr ⟨ha, hb⟩

/-- In front of position `j` the temporary `x` is set, and from there to `j` only values are computed. -/
def SetBefore (code : List Instr) (j : Nat) (x : Place) : Prop :=
  ∃ (i : Nat) (d : Instr), i < j ∧ code[i]? = some d ∧ d.temp? = some x ∧
    ∀ (m : Nat) (between : Instr), i < m → m < j → code[m]? = some between →
      between.temp?.isSome = true

namespace SetBefore

variable {a b : List Instr} {j : Nat} {x : Place}

theorem append_right (h : SetBefore a j x) (hj : j ≤ a.length) : SetBefore (a ++ b) j x := by
  obtain ⟨i, d, hlt, hi, hd, hbetween⟩ := h
  refine ⟨i, d, hlt, ?_, hd, fun m between him hmj hm => ?_⟩
  · rw [List.getElem?_append_left (by omega)]
    exact hi
  · rw [List.getElem?_append_left (by omega)] at hm
    exact hbetween m between him hmj hm

theorem append_left (h : SetBefore b j x) : SetBefore (a ++ b) (a.length + j) x := by
  obtain ⟨i, d, hlt, hi, hd, hbetween⟩ := h
  refine ⟨a.length + i, d, by omega, ?_, hd, fun m between him hmj hm => ?_⟩
  · rw [List.getElem?_append_right (by omega), Nat.add_sub_cancel_left]
    exact hi
  · rw [List.getElem?_append_right (by omega)] at hm
    exact hbetween (m - a.length) between (by omega) (by omega) hm

/-- Straight code sets its temporaries in front of what follows it. -/
theorem of_straight (hstraight : Straight a) (hx : x ∈ tempsOf a) : SetBefore a a.length x := by
  obtain ⟨d, hd, hset⟩ := List.mem_filterMap.mp hx
  obtain ⟨i, hi⟩ := List.mem_iff_getElem?.mp hd
  have hlt : i < a.length := (List.getElem?_eq_some_iff.mp hi).1
  refine ⟨i, d, hlt, hi, hset, fun m between _ _ hm => ?_⟩
  exact hstraight between (List.mem_of_getElem? hm)

end SetBefore

/-- Every temporary that an instruction reads is set before it. -/
def SetNearby (code : List Instr) : Prop :=
  ∀ (j : Nat) (r : Instr) (x : Place), code[j]? = some r → x ∈ r.reads → isTempName x = true →
    SetBefore code j x

namespace SetNearby

variable {a b : List Instr} {i : Instr}

theorem nil : SetNearby [] := by
  intro j r x hj
  cases hj

theorem append (ha : SetNearby a) (hb : SetNearby b) : SetNearby (a ++ b) := by
  intro j r x hj hx htemp
  by_cases hin : j < a.length
  · rw [List.getElem?_append_left hin] at hj
    exact (ha j r x hj hx htemp).append_right (by omega)
  · obtain ⟨j, rfl⟩ : ∃ j', j = a.length + j' := ⟨j - a.length, by omega⟩
    rw [List.getElem?_append_right (by omega), Nat.add_sub_cancel_left] at hj
    exact (hb j r x hj hx htemp).append_left

/-- An instruction behind straight code that sets what it reads. -/
theorem snoc (ha : SetNearby a) (hstraight : Straight a)
    (hreads : ∀ x ∈ i.reads, isTempName x = true → x ∈ tempsOf a) : SetNearby (a ++ [i]) := by
  intro j r x hj hx htemp
  by_cases hin : j < a.length
  · rw [List.getElem?_append_left hin] at hj
    exact (ha j r x hj hx htemp).append_right (by omega)
  · have hbound : j < (a ++ [i]).length := (List.getElem?_eq_some_iff.mp hj).1
    rw [List.length_append, List.length_singleton] at hbound
    obtain rfl : j = a.length := by omega
    rw [List.getElem?_concat_length, Option.some.injEq] at hj
    subst hj
    exact (SetBefore.of_straight hstraight (hreads x hx htemp)).append_right (Nat.le_refl _)

end SetNearby

/-! ## Accounts -/

/-- **Accounts of temporaries.** The values in `left` are left to be read behind the code. A temporary is
    set as often as it is read or left, and is set nearby where it is read; no variable is spelled like
    one. -/
structure Accounts (left : List Place) (code : List Instr) : Prop where
  balance : ∀ x, isTempName x = true → (readsOf code).count x + left.count x = (tempsOf code).count x
  nearby : SetNearby code
  targets : ∀ i ∈ code, ∀ x, i.writes? = some x → isTempName x = true → i.temp? = some x

namespace Accounts

variable {left left' : List Place} {a b : List Instr} {i : Instr} {x : Place}

theorem nil : Accounts [] [] :=
  ⟨fun _ _ => rfl, .nil, nofun⟩

/-- A variable is a value that needs no code. -/
theorem name (hx : isTempName x = false) : Accounts [x] [] := by
  refine ⟨fun y hy => ?_, .nil, nofun⟩
  have hne : x ≠ y := by
    rintro rfl
    rw [hx] at hy
    cases hy
  rw [List.count_singleton, beq_eq_false_iff_ne.mpr hne]
  rfl

/-- What two parts leave unread is left by both together. -/
theorem append (ha : Accounts left a) (hb : Accounts left' b) :
    Accounts (left ++ left') (a ++ b) := by
  refine ⟨fun x hx => ?_, ha.nearby.append hb.nearby,
    List.forall_mem_append.mpr ⟨ha.targets, hb.targets⟩⟩
  have hleft := ha.balance x hx
  have hright := hb.balance x hx
  rw [readsOf_append, tempsOf_append, List.count_append, List.count_append, List.count_append]
  omega

/-- What is left was set. -/
theorem mem_temps (ha : Accounts left a) (hx : isTempName x = true) (hleft : x ∈ left) :
    x ∈ tempsOf a := by
  have hbalance := ha.balance x hx
  have hpos : 0 < left.count x := List.count_pos_iff.mpr hleft
  exact List.count_pos_iff.mp (by omega)

/-- An instruction that reads the values that are left, and leaves the temporary that it sets. -/
theorem snoc (ha : Accounts i.reads a) (hstraight : Straight a)
    (htarget : ∀ x, i.writes? = some x → isTempName x = true → i.temp? = some x) :
    Accounts i.temp?.toList (a ++ [i]) := by
  refine ⟨fun x hx => ?_, ha.nearby.snoc hstraight fun x hx htemp => ha.mem_temps htemp hx, ?_⟩
  · have hbalance := ha.balance x hx
    rw [readsOf_append, readsOf_singleton, tempsOf_append, tempsOf_singleton, List.count_append,
      List.count_append]
    omega
  · exact List.forall_mem_append.mpr ⟨ha.targets, List.forall_mem_singleton.mpr htarget⟩

/-- An instruction that uses up the values that are left. -/
theorem use (ha : Accounts left a) (hstraight : Straight a) (hreads : i.reads = left)
    (htemp : i.temp? = none) (hwrites : ∀ x, i.writes? = some x → isTempName x = false) :
    Accounts [] (a ++ [i]) := by
  subst hreads
  have hsnoc := ha.snoc hstraight (fun x hx hspelling => by
    rw [hwrites x hx] at hspelling
    cases hspelling)
  rw [htemp] at hsnoc
  exact hsnoc

/-- An instruction that makes a new value of the values that are left. -/
theorem compute (ha : Accounts left a) (hstraight : Straight a) (hreads : i.reads = left)
    (htemp : i.temp? = some x) : Accounts [x] (a ++ [i]) := by
  subst hreads
  have hsnoc := ha.snoc hstraight (fun y hy _ => by
    rw [Instr.writes?_of_temp? htemp] at hy
    rw [htemp]
    exact hy)
  rw [htemp] at hsnoc
  exact hsnoc

/-- An instruction that neither reads nor writes. -/
theorem quiet (hreads : i.reads = []) (hwrites : i.writes? = none) : Accounts [] [i] := by
  have htemp : i.temp? = none := by
    cases h : i.temp? with
    | none => rfl
    | some x =>
        rw [Instr.writes?_of_temp? h] at hwrites
        cases hwrites
  exact nil.use nofun hreads htemp (by rw [hwrites]; exact nofun)

end Accounts

mutual

/-- Expressions compute nothing but values. -/
theorem straight_lower : ∀ (e : Expr) (k : Nat), Straight (e.lower k).code
  | .int _ _, _ | .bool _ _, _ => List.forall_mem_singleton.mpr rfl
  | .var _ _, _ => nofun
  | .paren inner _, k => straight_lower inner k
  | .not operand _, k => (straight_lower operand k).append (List.forall_mem_singleton.mpr rfl)
  | .binary _ left right _, k =>
      ((straight_lower left k).append (straight_lower right _)).append
        (List.forall_mem_singleton.mpr rfl)
  | .call _ args _, k => (straight_lowerArgs args k).append (List.forall_mem_singleton.mpr rfl)

theorem straight_lowerArgs : ∀ (es : List Expr) (k : Nat), Straight (lowerArgs es k).code
  | [], _ => nofun
  | e :: es, k => (straight_lower e k).append (straight_lowerArgs es _)

end

mutual

/-- **The code of an expression leaves its value, and reads every other value that it computes.** -/
theorem accounts_lower : ∀ (e : Expr) (k : Nat), (∀ x ∈ e.identifiers, isTempName x = false) →
    Accounts [(e.lower k).result] (e.lower k).code
  | .int _ _, _, _ | .bool _ _, _, _ => Accounts.nil.compute nofun rfl rfl
  | .var _ _, _, h => .name (h _ List.mem_cons_self)
  | .paren inner _, k, h => accounts_lower inner k h
  | .not operand _, k, h => (accounts_lower operand k h).compute (straight_lower operand k) rfl rfl
  | .binary _ left right _, k, h => by
      obtain ⟨hleft, hright⟩ := List.forall_mem_append.mp h
      have hboth := (accounts_lower left k hleft).append
        (accounts_lower right (left.lower k).temps hright)
      exact hboth.compute ((straight_lower left k).append (straight_lower right _)) rfl rfl
  | .call _ args _, k, h => by
      have hargs := accounts_lowerArgs args k (List.forall_mem_cons.mp h).2
      exact hargs.compute (straight_lowerArgs args k) rfl rfl

/-- The code of arguments leaves exactly their places unread. -/
theorem accounts_lowerArgs : ∀ (es : List Expr) (k : Nat),
    (∀ x ∈ identifiersOf es, isTempName x = false) →
    Accounts (lowerArgs es k).result (lowerArgs es k).code
  | [], _, _ => .nil
  | e :: es, k, h => by
      obtain ⟨hfirst, hmore⟩ := List.forall_mem_append.mp h
      exact (accounts_lower e k hfirst).append (accounts_lowerArgs es _ hmore)

end

namespace Accounts

variable {e cond : Expr} {left left' : List Place} {yes no body : List Instr}

/-- The value of an expression is read by the instruction behind its code. -/
theorem value {i : Instr} (h : ∀ x ∈ e.identifiers, isTempName x = false) (k : Nat)
    (hreads : i.reads = [(e.lower k).result]) (htemp : i.temp? = none)
    (hwrites : ∀ x, i.writes? = some x → isTempName x = false) :
    Accounts [] ((e.lower k).code ++ [i]) :=
  (accounts_lower e k h).use (straight_lower e k) hreads htemp hwrites

/-! The value of a condition is read by the jump behind it, so a construct with blocks leaves what its
blocks leave. -/

/-- The test of an `if` reads its condition, so the layout leaves what its body leaves. -/
theorem ifThen (h : ∀ x ∈ cond.identifiers, isTempName x = false) (k : Nat) (stop : Label)
    (hbody : Accounts left body) : Accounts left (Layout.ifThen (cond.lower k) stop body) := by
  have htest : Accounts [] ((cond.lower k).code ++ [.ifNotGoto (cond.lower k).result stop]) :=
    value h k rfl rfl nofun
  have hstop : Accounts [] [.label stop] := quiet rfl rfl
  rw [Layout.ifThen_eq]
  simpa using (htest.append hbody).append hstop

/-- An `if` with `else` leaves what its branches leave. -/
theorem ifElse (h : ∀ x ∈ cond.identifiers, isTempName x = false) (k : Nat)
    (first second stop : Label) (hyes : Accounts left yes) (hno : Accounts left' no) :
    Accounts (left ++ left') (Layout.ifElse (cond.lower k) first second stop yes no) := by
  have htest : Accounts [] ((cond.lower k).code ++ [.ifGoto (cond.lower k).result first]) :=
    value h k rfl rfl nofun
  have helse : Accounts [] [.goto second] := quiet rfl rfl
  have hfirst : Accounts [] [.label first] := quiet rfl rfl
  have hskip : Accounts [] [.goto stop] := quiet rfl rfl
  have hsecond : Accounts [] [.label second] := quiet rfl rfl
  have hstop : Accounts [] [.label stop] := quiet rfl rfl
  have hblocks := (hyes.append (hskip.append hsecond)).append (hno.append hstop)
  unfold Layout.ifElse
  simpa using (htest.append (helse.append hfirst)).append hblocks

/-- A loop leaves what its body leaves. -/
theorem loop (h : ∀ x ∈ cond.identifiers, isTempName x = false) (k : Nat) (l : Loop)
    (hbody : Accounts left body) : Accounts left (Layout.loop (cond.lower k) l body) := by
  have hstart : Accounts [] [.label l.start] := quiet rfl rfl
  have htest : Accounts [] ((cond.lower k).code ++ [.ifNotGoto (cond.lower k).result l.stop]) :=
    value h k rfl rfl nofun
  have hback : Accounts [] [.goto l.start] := quiet rfl rfl
  have hstop : Accounts [] [.label l.stop] := quiet rfl rfl
  unfold Layout.loop
  simpa using (hstart.append htest).append (hbody.append (hback.append hstop))

end Accounts

/-- Each value is printed as soon as it is there. -/
theorem accounts_lowerPrints (es : List Expr) (k : Nat)
    (h : ∀ e ∈ es, ∀ x ∈ e.identifiers, isTempName x = false) :
    Accounts [] (lowerPrints es k).code := by
  induction es generalizing k with
  | nil => exact .nil
  | cons e es ih =>
      obtain ⟨hfirst, hmore⟩ := List.forall_mem_cons.mp h
      have hprint : Accounts [] ((e.lower k).code ++ [.print (e.lower k).result]) :=
        .value hfirst k rfl rfl nofun
      exact hprint.append (ih _ hmore)

/-! ## Statements -/

/-- A condition takes one temporary for each literal, operator and call. -/
theorem temps_afterTest (s : Supply) (cond : Expr) (n : Nat) :
    (s.afterTest cond n).temps = s.temps + cond.tempCount :=
  (takesTemps_lower cond s.temps).count

/-- A call leaves its result in the last temporary that it takes. -/
theorem result_lower_call (callee : Ident) (args : List Expr) (span : Span) (k : Nat) :
    ((Expr.call callee args span).lower k).result =
      tempName (k + (Expr.call callee args span).tempCount) := by
  have hcount := (takesTemps_lower (.call callee args span) k).count
  rw [← hcount]
  rfl

/-- **What statements leave.** The values that are left are results of calls. -/
structure Leaves (left : List Place) (code : List Instr) : Prop extends Accounts left code where
  calls : ∀ x ∈ left, ∃ callee args, Instr.call x callee args ∈ code

namespace Leaves

variable {left left' : List Place} {a b code : List Instr}

theorem nothing (h : Accounts [] code) : Leaves [] code :=
  ⟨h, nofun⟩

/-- The values that parts of some code leave are left by the code, if its accounts say so. -/
theorem within (ha : Leaves left a) (hb : Leaves left' b) (h : Accounts (left ++ left') code)
    (hsub : a ++ b ⊆ code) : Leaves (left ++ left') code := by
  refine ⟨h, fun x hx => ?_⟩
  rcases List.mem_append.mp hx with hx | hx
  · obtain ⟨callee, args, hcall⟩ := ha.calls x hx
    exact ⟨callee, args, hsub (List.mem_append_left _ hcall)⟩
  · obtain ⟨callee, args, hcall⟩ := hb.calls x hx
    exact ⟨callee, args, hsub (List.mem_append_right _ hcall)⟩

theorem append (ha : Leaves left a) (hb : Leaves left' b) : Leaves (left ++ left') (a ++ b) :=
  ha.within hb (ha.toAccounts.append hb.toAccounts) (List.Subset.refl _)

/-- One part of some code that leaves all that the code leaves. -/
theorem alone (ha : Leaves left a) (h : Accounts left code) (hsub : a ⊆ code) : Leaves left code := by
  have hnothing : Leaves [] [] := nothing .nil
  have hwithin := ha.within hnothing (by rwa [List.append_nil]) (by rwa [List.append_nil])
  rwa [List.append_nil] at hwithin

variable {cond : Expr} (h : ∀ x ∈ cond.identifiers, isTempName x = false) (k : Nat)

include h

theorem ifThen (stop : Label) (ha : Leaves left a) :
    Leaves left (Layout.ifThen (cond.lower k) stop a) := by
  refine ha.alone (ha.toAccounts.ifThen h k stop) (fun i hi => ?_)
  simp [Layout.ifThen, hi]

theorem ifElse (first second stop : Label) (ha : Leaves left a) (hb : Leaves left' b) :
    Leaves (left ++ left') (Layout.ifElse (cond.lower k) first second stop a b) := by
  refine ha.within hb (ha.toAccounts.ifElse h k first second stop hb.toAccounts) (fun i hi => ?_)
  rcases List.mem_append.mp hi with hi | hi
  · simp [Layout.ifElse, hi]
  · simp [Layout.ifElse, hi]

theorem loop (l : Loop) (ha : Leaves left a) : Leaves left (Layout.loop (cond.lower k) l a) := by
  refine ha.alone (ha.toAccounts.loop h k l) (fun i hi => ?_)
  simp [Layout.loop, hi]

end Leaves

mutual

/-- **At the end of a statement only the results of calls are left.** -/
theorem leaves_lower_stmt : ∀ (st : Stmt) {loop : Option Loop} {s s' : Supply} {code : List Instr},
    st.lower loop s = .ok code s' → NoTemps st.targets st.exprs →
    Leaves ((st.callResults s.temps).map tempName) code
  | .assign target value _, loop, s, s', code, h, hn => by
      rw [lower_assign] at h
      cases h
      refine .nothing (.value hn.head s.temps rfl rfl ?_)
      rintro x ⟨⟩
      exact hn.targets _ List.mem_cons_self
  | .call callee args span, loop, s, s', code, h, hn => by
      rw [lower_call] at h
      cases h
      have hcall := accounts_lower (.call callee args span) s.temps hn.head
      rw [result_lower_call] at hcall
      refine ⟨hcall, List.forall_mem_singleton.mpr ?_⟩
      -- the call stands behind the code of its arguments
      rw [← result_lower_call]
      exact ⟨callee.name, _, List.mem_append_right _ (List.mem_singleton_self _)⟩
  | .return none _, loop, s, s', code, h, _ => by
      rw [lower_return_none] at h
      cases h
      exact .nothing (.quiet rfl rfl)
  | .return (some value) _, loop, s, s', code, h, hn => by
      rw [lower_return_some] at h
      cases h
      exact .nothing (.value hn.head s.temps rfl rfl nofun)
  | .ifThen cond yes _, loop, s, s', code, h, hn => by
      obtain ⟨body, hb, rfl⟩ := lower_ifThen_eq_ok h
      have hbody := leaves_lower_block yes hb hn.tail
      rw [temps_afterTest] at hbody
      exact hbody.ifThen hn.head s.temps _
  | .ifElse cond yes no _, loop, s, s', code, h, hn => by
      obtain ⟨a, s₁, b, ha, hb, rfl⟩ := lower_ifElse_eq_ok h
      have hyes := leaves_lower_block yes ha hn.tail.left
      have hno := leaves_lower_block no hb hn.tail.right
      rw [(takesTemps_lower_block yes ha).count, temps_afterTest] at hno
      rw [temps_afterTest] at hyes
      unfold Stmt.callResults
      rw [List.map_append]
      exact hyes.ifElse hn.head s.temps _ _ _ hno
  | .while cond body _, loop, s, s', code, h, hn => by
      obtain ⟨a, ha, rfl⟩ := lower_while_eq_ok h
      have hbody := leaves_lower_block body ha hn.tail
      rw [temps_afterTest] at hbody
      exact hbody.loop hn.head s.temps _
  | .break _, none, s, s', code, h, _ => by cases h
  | .break _, some l, s, s', code, h, _ => by cases h; exact .nothing (.quiet rfl rfl)
  | .continue _, none, s, s', code, h, _ => by cases h
  | .continue _, some l, s, s', code, h, _ => by cases h; exact .nothing (.quiet rfl rfl)
  | .write args _, loop, s, s', code, h, hn => by
      rw [lower_write] at h
      cases h
      exact .nothing (accounts_lowerPrints args s.temps hn.exprs)

/-- A block leaves the results of its call statements unread, and nothing else. -/
theorem leaves_lower_block : ∀ (b : Block) {loop : Option Loop} {s s' : Supply}
    {code : List Instr}, b.lower loop s = .ok code s' → NoTemps b.targets b.exprs →
    Leaves ((b.callResults s.temps).map tempName) code
  | ⟨statements, _⟩, _, _, _, _, h, hn => leaves_lowerAll statements h hn

theorem leaves_lowerAll : ∀ (ss : List Stmt) {loop : Option Loop} {s s' : Supply}
    {code : List Instr}, lowerAll loop ss s = .ok code s' → NoTemps (targetsOf ss) (exprsOf ss) →
    Leaves ((callResultsOf s.temps ss).map tempName) code
  | [], loop, s, s', code, h, _ => by
      cases h
      exact .nothing .nil
  | first :: more, loop, s, s', code, h, hn => by
      obtain ⟨a, s₁, b, ha, hb, rfl⟩ := lowerAll_cons_eq_ok h
      have hcount := (takesTemps_lower_stmt first ha).count
      have hmore := leaves_lowerAll more hb hn.right
      rw [hcount] at hmore
      unfold callResultsOf
      rw [List.map_append]
      exact (leaves_lower_stmt first ha hn.left).append hmore

end

/-! ## Programs -/

/-- The blocks of a program leave the results of their call statements. -/
theorem leaves_lower_program {p : Program} {s s' : Supply} {code : List Instr}
    (h : p.lower s = .ok code s') (hnames : ∀ x ∈ p.identifiers, isTempName x = false) :
    Leaves ((callResultsIn s.temps p.bodies).map tempName) code := by
  have hbodies : ∀ b ∈ p.bodies, NoTemps b.targets b.exprs :=
    fun b hb => .block fun x hx => hnames x (identifiers_of_mem_bodies hb x hx)
  -- code in a row goes on counting where the code before it stopped
  have hleaves := lower_program_rec (P := fun bs s s' code =>
    s'.temps = s.temps + tempCountOf (bs.flatMap Block.exprs) ∧
      ((∀ b ∈ bs, NoTemps b.targets b.exprs) →
        Leaves ((callResultsIn s.temps bs).map tempName) code))
    (fun s => ⟨rfl, fun _ => .nothing .nil⟩) ?_ ?_ ?_ h
  · exact hleaves.2 hbodies
  · intro s i hi
    refine ⟨rfl, fun _ => ?_⟩
    cases i with
    | decl _ _ | sectionStart _ _ _ _ | sectionEnd _ _ => exact .nothing (.quiet rfl rfl)
    | _ => cases hi
  · rintro bs bs' s s₁ s' a b ⟨hcount, ha⟩ ⟨hcount', hb⟩
    refine ⟨?_, fun hall => ?_⟩
    · rw [hcount', hcount, List.flatMap_append, tempCountOf_append, Nat.add_assoc]
    · obtain ⟨hleft, hright⟩ := List.forall_mem_append.mp hall
      have hlater := hb hright
      rw [hcount] at hlater
      rw [callResultsIn_append, List.map_append]
      exact (ha hleft).append hlater
  · intro b s s' code hb
    have hcount := (takesTemps_lower_block b hb).count
    refine ⟨?_, fun hall => ?_⟩
    · rw [List.flatMap_singleton]
      exact hcount
    · rw [callResultsIn, callResultsIn, List.append_nil]
      exact leaves_lower_block b hb (hall b List.mem_cons_self)

/-- Every instruction of a program but declarations stands in a section. -/
theorem covered_lower_program {p : Program} {s s' : Supply} {code : List Instr}
    (h : p.lower s = .ok code s') : Covered code := by
  obtain ⟨a, s₁, main, ha, hmain, rfl⟩ := lower_program_eq_ok h
  obtain ⟨_, hcovered, _⟩ := gives_lowerDecls ha
  have hin : (CodeSection.main main).body.all Instr.isPlain = true := plain_lower_block _ hmain
  exact hcovered.append (Covered.code hin)

/-- **Read after it is set.** The instruction at `i` writes `x`, and the one at `j`, behind it and in the
    same section, reads it. All that is done in between is to compute values: there is no label, no jump,
    no print, no assignment and no return. -/
structure ReadAfter (code : List Instr) (x : Place) (i j : Nat) : Prop where
  set : ∃ d, code[i]? = some d ∧ d.writes? = some x
  read : ∃ r, code[j]? = some r ∧ x ∈ r.reads
  lt : i < j
  between : ∀ m instr, i < m → m < j → code[m]? = some instr → instr.temp?.isSome = true
  together : ∃ first last, IsSection code first last ∧ first < i ∧ j < last

/-- What is set before an instruction that reads it is set in the same section: no section ends where
    only values are computed. -/
theorem SetBefore.readAfter {code : List Instr} {j : Nat} {x : Place} {r : Instr}
    (h : SetBefore code j x) (hcovered : Covered code) (hj : code[j]? = some r) (hx : x ∈ r.reads) :
    ∃ i, ReadAfter code x i j := by
  obtain ⟨i, d, hlt, hi, hd, hbetween⟩ := h
  have hdecl : d.isDecl = false := by
    cases d with
    | decl _ _ => cases hd
    | _ => rfl
  obtain ⟨first, last, hsec, hfirst, hlast⟩ := hcovered i d hi hdecl
  obtain ⟨kind, name, params, result, hstart, hend⟩ := hsec.ends
  refine ⟨i, ⟨d, hi, Instr.writes?_of_temp? hd⟩, ⟨r, hj, hx⟩, hlt, hbetween, first, last, hsec, ?_, ?_⟩
  · refine Nat.lt_of_le_of_ne hfirst ?_
    rintro rfl
    rw [hstart] at hi
    cases hi
    cases hd
  · by_contra hle
    by_cases hbound : last = j
    · -- the end of a section reads nothing
      subst hbound
      rw [hend] at hj
      cases hj
      cases hx
    · by_cases hself : last = i
      · subst hself
        rw [hend] at hi
        cases hi
        cases hd
      · have hvalue := hbetween last _ (by omega) (by omega) hend
        cases hvalue

/-- A temporary is written as often as it is set. -/
theorem Accounts.count_writes {left : List Place} {code : List Instr} {x : Place}
    (h : Accounts left code) (hx : isTempName x = true) :
    (writesOf code).count x = (tempsOf code).count x := by
  unfold writesOf tempsOf
  rw [List.count_filterMap, List.count_filterMap]
  refine List.countP_congr fun i hi => ?_
  simp only [beq_iff_eq]
  exact ⟨fun hwrites => h.targets i hi x hwrites hx, Instr.writes?_of_temp?⟩

/-- **Every temporary is set once, read once, and read nearby.** In the code of a program that spells no
    name like a temporary: a temporary is written by one instruction. If it has the result of a call
    statement, that is a call, and nothing reads it. Otherwise it is one operand in the whole code, of an
    instruction behind the one that sets it, in the same section and with only values computed in between. -/
theorem temporaries_single_use {p : Program} {code : List Instr} (h : p.code = .ok code)
    (hnames : ∀ x ∈ p.identifiers, isTempName x = false) :
    ∀ x ∈ writesOf code ++ readsOf code, isTempName x = true →
      (writesOf code).count x = 1 ∧
      (x ∈ p.callResults → (∃ callee args, Instr.call x callee args ∈ code) ∧ x ∉ readsOf code) ∧
      (x ∉ p.callResults → (readsOf code).count x = 1 ∧ ∃ i j, ReadAfter code x i j) := by
  intro x hx htemp
  obtain ⟨s', hlow⟩ := code_eq_ok h
  have hleaves := leaves_lower_program hlow hnames
  have hbalance : (readsOf code).count x + p.callResults.count x = (tempsOf code).count x :=
    hleaves.balance x htemp
  have hwrites := hleaves.count_writes htemp
  -- whatever is written or read was set, and no temporary is set twice
  have hset : x ∈ tempsOf code := by
    rw [← List.count_pos_iff]
    rcases List.mem_append.mp hx with hx | hx
    · have hpos := List.count_pos_iff.mpr hx
      omega
    · have hpos := List.count_pos_iff.mpr hx
      omega
  have hnodup : (tempsOf code).Nodup := by
    rw [(takesTemps_lower_program hlow).names]
    exact nodup_tempNames _ _
  have hone : (tempsOf code).count x = 1 := List.count_eq_one_of_mem hnodup hset
  refine ⟨by omega, fun hcall => ⟨hleaves.calls x hcall, fun hread => ?_⟩, fun hcall => ?_⟩
  · have hleft := List.count_pos_iff.mpr hcall
    have hpos := List.count_pos_iff.mpr hread
    omega
  · have hnone : p.callResults.count x = 0 := List.count_eq_zero.mpr hcall
    have hreads : (readsOf code).count x = 1 := by omega
    refine ⟨hreads, ?_⟩
    have hread : x ∈ readsOf code := List.count_pos_iff.mp (by omega)
    obtain ⟨r, hr, hxr⟩ := List.mem_flatMap.mp hread
    obtain ⟨j, hj⟩ := List.mem_iff_getElem?.mp hr
    obtain ⟨i, hafter⟩ := (hleaves.nearby j r x hj hxr htemp).readAfter
      (covered_lower_program hlow) hj hxr
    exact ⟨i, j, hafter⟩

/-- A call statement with a call among its arguments, and a loop with calls in its condition and in what
    it prints. -/
def nestedCalls : Program :=
  let here : Span := ⟨0, 0, 1, 1⟩
  let id (x : String) : Ident := ⟨x, here⟩
  let var (x : String) : Expr := .var x here
  let int (n : Int) : Expr := .int n here
  let add (a b : Expr) : Expr := .call (id "add") [a, b] here
  let body : Block := ⟨[.return (some (.binary .add (var "a") (var "b") here)) here], here⟩
  let print : Stmt := .write [.binary .add (var "x") (int 1) here, add (var "x") (var "x")] here
  ⟨[.vars ⟨[id "x"], .integer, here⟩,
      .routine ⟨id "add", [⟨[id "a", id "b"], .integer, here⟩], some .integer, body, here⟩],
    ⟨[.call (id "add") [int 1, add (int 2) (int 3)] here,
      .while (.not (.paren (.binary .eq (var "x") (add (var "x") (int 1)) here) here) here)
        ⟨[print], here⟩ here], here⟩, here⟩

/-- The sixth temporary has the result of the call statement. The second one, its first argument, is read
    behind the code of the second argument. -/
theorem temporaries_single_use_nestedCalls :
    ∃ code, nestedCalls.code = .ok code ∧ nestedCalls.callResults = ["t6"] ∧ "t6" ∉ readsOf code ∧
      (readsOf code).count "t2" = 1 ∧ ∃ i j, ReadAfter code "t2" i j := by
  have hnames : ∀ x ∈ nestedCalls.identifiers, isTempName x = false := by decide
  have hresults : nestedCalls.callResults = ["t6"] := by decide
  cases hcode : nestedCalls.code with
  | error e =>
      have hok : nestedCalls.code.toOption.isSome = true := by decide +kernel
      rw [hcode] at hok
      cases hok
  | ok code =>
      have huse := temporaries_single_use hcode hnames
      have hplaces : (nestedCalls.code.toOption.map fun code =>
          decide ("t6" ∈ writesOf code ∧ "t2" ∈ writesOf code)) = some true := by decide +kernel
      rw [hcode] at hplaces
      obtain ⟨h6, h2⟩ := of_decide_eq_true (Option.some.inj hplaces)
      obtain ⟨_, hunread, _⟩ := huse "t6" (List.mem_append_left _ h6) (by decide)
      obtain ⟨_, _, hread⟩ := huse "t2" (List.mem_append_left _ h2) (by decide)
      rw [hresults] at hunread hread
      exact ⟨code, rfl, hresults, (hunread (by decide)).2, hread (by decide)⟩

end TinyPascal
