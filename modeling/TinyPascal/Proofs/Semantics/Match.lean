import TinyPascal.Proofs.Code.Lowering
import TinyPascal.Proofs.Semantics.Machine

/-!
# `Proofs.Semantics.Match` — how a frame of the machine matches the tree

Running the tree and running the code keep the same world. They differ in what an activation owns: a
frame of the machine also holds temporaries. `Agree` relates the two, `Keeps` says how much of a frame
a piece of code leaves alone.

## Contents
- **Code in place.** `CodeAt code pc part`: the instructions `part` stand in `code` at `pc`.
- **Labels in place.** `labelIndex?_of_codeAt`: in code that sets no label twice, a label is found where
  it stands.
- **Agreement.** `Agree σ τ`: the frame `τ` holds what the activation `σ` of the tree holds.
- **Freshness.** `Keeps k τ τ'`: only temporaries numbered above `k` have changed.
-/

namespace TinyPascal
namespace Machine

/-! ## Code in place -/

/-- The instructions `part` stand in `code` at `pc`. -/
def CodeAt (code : List Instr) (pc : Nat) (part : List Instr) : Prop :=
  ∃ before after, code = before ++ (part ++ after) ∧ before.length = pc

namespace CodeAt

variable {code a b : List Instr} {i : Instr} {pc : Nat}

theorem head (h : CodeAt code pc (i :: a)) : code[pc]? = some i := by
  obtain ⟨before, after, rfl, rfl⟩ := h
  simp

theorem left (h : CodeAt code pc (a ++ b)) : CodeAt code pc a := by
  obtain ⟨before, after, rfl, rfl⟩ := h
  exact ⟨before, b ++ after, by simp, rfl⟩

theorem right (h : CodeAt code pc (a ++ b)) : CodeAt code (pc + a.length) b := by
  obtain ⟨before, after, rfl, rfl⟩ := h
  exact ⟨before ++ a, after, by simp, by simp⟩

theorem tail (h : CodeAt code pc (i :: a)) : CodeAt code (pc + 1) a :=
  right (a := [i]) h

end CodeAt

/-! ## Labels in place -/

/-- Labels that are set once are found where they stand. -/
theorem labelIndex?_of_codeAt {code rest : List Instr} {l : Label} {pc : Nat}
    (hnd : (labelNumbers code).Nodup) (h : CodeAt code pc (.label l :: rest)) :
    labelIndex? code l = some pc := by
  obtain ⟨before, after, rfl, rfl⟩ := h
  -- the same label further up would give its number a second time
  have hfree : ∀ i ∈ before, ¬ i.defines? = some l := by
    intro i hi hl
    rw [labelNumbers_append] at hnd
    obtain ⟨_, _, hne⟩ := List.nodup_append.mp hnd
    refine hne (labelNumber l) ?_ (labelNumber l) ?_ rfl
    · exact List.mem_filterMap.mpr ⟨i, hi, by rw [hl]; rfl⟩
    · exact List.mem_cons_self
  unfold labelIndex?
  rw [List.findIdx?_append, List.findIdx?_eq_none_iff.mpr (by simpa using hfree)]
  simp [List.findIdx?_cons, Instr.defines?]

/-! ## Agreement -/

/-- **Agreement.** The frame `τ` owns the names of the tree's activation `σ`, with the same contents, and
    all temporaries besides. -/
structure Agree {V : Type} (σ τ : Activation V) : Prop where
  owns : ∀ {x}, isTempName x = false → τ.owns x = σ.owns x
  slots : ∀ {x}, isTempName x = false → τ.slots x = σ.slots x
  temps : ∀ n, τ.owns (tempName n) = true

namespace Agree

variable {V : Type} {σ τ : Activation V} {w : World V} {x : String} {r : Option V}

/-- A name that is no temporary has the same value in both activations. -/
theorem read (h : Agree σ τ) (hx : isTempName x = false) : τ.read w x = σ.read w x := by
  unfold Activation.read
  rw [h.owns hx, h.slots hx]

/-- A name that is no temporary is global in both activations or in none. -/
theorem world_set (h : Agree σ τ) (hx : isTempName x = false) : w.set τ x r = w.set σ x r := by
  unfold World.set
  rw [h.owns hx]

/-- Setting a temporary changes nothing that is shared. -/
theorem world_set_temp (h : Agree σ τ) (n : Nat) : w.set τ (tempName n) r = w := by
  unfold World.set
  rw [if_pos (h.temps n)]

/-- The machine has its temporaries in the frame. -/
theorem read_temp (h : Agree σ τ) (n : Nat) : τ.read w (tempName n) = τ.slots (tempName n) := by
  unfold Activation.read
  rw [if_pos (h.temps n)]

/-- A temporary holds what it was set to. -/
theorem read_set_temp (h : Agree σ τ) (n : Nat) :
    (τ.set (tempName n) r).read w (tempName n) = r := by
  unfold Activation.read Activation.set
  simp [h.temps n]

/-- Setting the same name on both sides keeps the agreement. -/
theorem set (h : Agree σ τ) (hx : isTempName x = false) : Agree (σ.set x r) (τ.set x r) := by
  unfold Activation.set
  rw [h.owns hx]
  split
  · refine ⟨h.owns, fun {y} hy => ?_, h.temps⟩
    show τ.slots.set x r y = σ.slots.set x r y
    unfold Env.set
    rw [h.slots hy]
  · exact h

/-- A frame agrees with the activation of the routine that it was opened for. -/
theorem enter {s : Section} {args : List V} :
    Agree (.ofArgs s.params args) (Frame.enter s args).names := by
  refine ⟨fun {x} hx => ?_, fun _ => rfl, fun n => ?_⟩
  · show (s.params.contains x || isTempName x) = s.params.contains x
    rw [hx, Bool.or_false]
  · show (s.params.contains (tempName n) || isTempName (tempName n)) = true
    rw [isTempName_tempName, Bool.or_true]

end Agree

/-! ## Freshness -/

/-- **Freshness.** Nothing but temporaries numbered above `k` has changed. -/
structure Keeps {V : Type} (k : Nat) (τ τ' : Activation V) : Prop where
  owns : ∀ x, τ'.owns x = τ.owns x
  slots : ∀ x, (∀ j, k < j → x ≠ tempName j) → τ'.slots x = τ.slots x

namespace Keeps

variable {V : Type} {k k' : Nat} {σ τ τ' τ'' : Activation V} {w : World V} {x : String}

theorem refl : Keeps k τ τ := ⟨fun _ => rfl, fun _ _ => rfl⟩

/-- What is kept twice is kept, up to the smaller number. -/
theorem trans (h : Keeps k τ τ') (h' : Keeps k' τ' τ'') (hle : k ≤ k') : Keeps k τ τ'' := by
  refine ⟨fun x => (h'.owns x).trans (h.owns x), fun x hx => ?_⟩
  rw [h'.slots x (fun j hj => hx j (Nat.lt_of_le_of_lt hle hj)), h.slots x hx]

/-- Setting a later temporary keeps the earlier ones. -/
theorem set_temp {j : Nat} {r : Option V} (h : k < j) : Keeps k τ (τ.set (tempName j) r) := by
  unfold Activation.set
  split
  · exact ⟨fun _ => rfl, fun x hx => Env.set_ne _ _ (hx j h)⟩
  · exact refl

theorem agree (h : Keeps k τ τ') (ha : Agree σ τ) : Agree σ τ' := by
  refine ⟨fun {x} hx => ?_, fun {x} hx => ?_, fun n => ?_⟩
  · rw [h.owns, ha.owns hx]
  · rw [h.slots x (fun j _ => ne_tempName hx j), ha.slots hx]
  · rw [h.owns, ha.temps]

/-- Earlier temporaries still hold what they held. -/
theorem read_temp {w' : World V} (h : Keeps k τ τ') (ha : Agree σ τ) {j : Nat} (hj : j ≤ k) :
    τ'.read w' (tempName j) = τ.read w (tempName j) := by
  rw [(h.agree ha).read_temp, ha.read_temp]
  -- what has changed is above `k`
  refine h.slots _ (fun i hi he => ?_)
  have := tempName_inj he
  omega

end Keeps

end Machine
end TinyPascal
