/-!
# `Proofs.Outcome` — taking computations that may fail apart

The stages are written in two ways: as an `Except`, and as an `EStateM` that also changes a state. The
lemmas of this module say, once for each, **when a sequence of two steps succeeds or fails**; every
proof about a stage peels its steps off with them.

Some results compare two computations. `Simulates` relates a computation to another one whose states and
errors are those of the first, seen through a function; what holds of each step holds of a sequence.
-/

namespace TinyPascal

/-! ## Computations without a state -/

namespace Except

variable {ε α β : Type}

/-- A sequence succeeds if both of its parts do. -/
theorem bind_eq_ok {x : Except ε α} {f : α → Except ε β} {b : β} :
    (x >>= f) = .ok b ↔ ∃ a, x = .ok a ∧ f a = .ok b := by
  cases x with
  | ok a =>
      refine ⟨fun h => ⟨a, rfl, h⟩, ?_⟩
      rintro ⟨_, h, hf⟩
      cases h
      exact hf
  | error e =>
      constructor
      · intro h
        cases h
      · rintro ⟨_, h, _⟩
        cases h

theorem bind_pure_eq_ok {x : Except ε α} {g : α → β} {b : β} :
    (x >>= fun a => pure (g a)) = .ok b ↔ ∃ a, x = .ok a ∧ b = g a := by
  rw [bind_eq_ok]
  constructor
  · rintro ⟨a, hx, hb⟩
    cases hb
    exact ⟨a, hx, rfl⟩
  · rintro ⟨a, hx, rfl⟩
    exact ⟨a, hx, rfl⟩

/-- A sequence fails in its first part, or in its second after the first succeeded. -/
theorem bind_eq_error {x : Except ε α} {f : α → Except ε β} {e : ε} :
    (x >>= f) = .error e ↔ x = .error e ∨ ∃ a, x = .ok a ∧ f a = .error e := by
  cases x with
  | ok a =>
      constructor
      · intro h
        exact .inr ⟨a, rfl, h⟩
      · rintro (h | ⟨_, h, hf⟩)
        · cases h
        · cases h
          exact hf
  | error e' =>
      constructor
      · intro h
        cases h
        exact .inl rfl
      · rintro (h | ⟨_, h, _⟩)
        · cases h
          rfl
        · cases h

variable {ε' : Type} {x : Except ε α} {f : ε → ε'}

theorem mapError_eq_ok {a : α} : x.mapError f = .ok a ↔ x = .ok a := by
  cases x with
  | ok v =>
      constructor
      · intro h
        cases h
        rfl
      · intro h
        cases h
        rfl
  | error e =>
      constructor
      · intro h
        cases h
      · intro h
        cases h

theorem mapError_eq_error {e' : ε'} :
    x.mapError f = .error e' ↔ ∃ e, x = .error e ∧ e' = f e := by
  cases x with
  | ok v =>
      constructor
      · intro h
        cases h
      · rintro ⟨_, h, _⟩
        cases h
  | error e =>
      constructor
      · intro h
        cases h
        exact ⟨e, rfl, rfl⟩
      · rintro ⟨_, h, rfl⟩
        cases h
        rfl

/-- Two computations that come to the same, up to `g` on results and `f` on errors. -/
theorem cases_of_mapError_eq {γ : Type} {y : Except ε α} {g : α → γ}
    (h : (x.map g).mapError f = (y.map g).mapError f) :
    (∃ a b, x = .ok a ∧ y = .ok b ∧ g a = g b) ∨
      ∃ e e', x = .error e ∧ y = .error e' ∧ f e = f e' := by
  cases x with
  | ok a =>
      cases y with
      | ok b => exact .inl ⟨a, b, rfl, rfl, Except.ok.inj h⟩
      | error e => cases h
  | error e =>
      cases y with
      | ok b => cases h
      | error e' => exact .inr ⟨e, e', rfl, rfl, Except.error.inj h⟩

/-- A result that was computed. -/
theorem eq_ok_of_toOption {a : α} (h : x.toOption = some a) : x = .ok a := by
  cases x with
  | ok v =>
      cases h
      rfl
  | error e => cases h

end Except

/-! ## Computations with a state -/

namespace EStateM

variable {ε σ α β : Type} {x : EStateM ε σ α} {f : α → EStateM ε σ β} {s s' : σ}

/-- A sequence with a state succeeds if both of its parts do, the second in the state left by the first.
    -/
theorem bind_eq_ok {b : β} :
    (x >>= f) s = .ok b s' ↔ ∃ a s₁, x s = .ok a s₁ ∧ f a s₁ = .ok b s' := by
  show EStateM.bind x f s = .ok b s' ↔ _
  unfold EStateM.bind
  cases x s with
  | ok a s₁ =>
      refine ⟨fun h => ⟨a, s₁, rfl, h⟩, ?_⟩
      rintro ⟨_, _, h, hf⟩
      cases h
      exact hf
  | error e s₁ => simp

/-- A step whose result is only dressed up. -/
theorem bind_pure_eq_ok {g : α → β} {b : β} :
    (x >>= fun a => pure (g a)) s = .ok b s' ↔ ∃ a, x s = .ok a s' ∧ b = g a := by
  rw [bind_eq_ok]
  constructor
  · rintro ⟨a, s₁, hx, hb⟩
    cases hb
    exact ⟨a, hx, rfl⟩
  · rintro ⟨a, hx, rfl⟩
    exact ⟨a, s', hx, rfl⟩

/-- A sequence with a state fails in its first part, or in its second after the first succeeded. -/
theorem bind_eq_error {e : ε} :
    (x >>= f) s = .error e s' ↔
      x s = .error e s' ∨ ∃ a s₁, x s = .ok a s₁ ∧ f a s₁ = .error e s' := by
  show EStateM.bind x f s = .error e s' ↔ _
  unfold EStateM.bind
  cases x s with
  | ok a s₁ =>
      constructor
      · intro h
        exact .inr ⟨a, s₁, rfl, h⟩
      · rintro (h | ⟨_, _, h, hf⟩)
        · cases h
        · cases h
          exact hf
  | error e' s₁ => simp

/-- Behind a first part that succeeds, a sequence goes on with the second. -/
theorem bind_of_ok {a : α} {s₁ : σ} (h : x s = .ok a s₁) : (x >>= f) s = f a s₁ := by
  show EStateM.bind x f s = _
  unfold EStateM.bind
  rw [h]

/-- A sequence whose first part fails fails with its error and its state. -/
theorem bind_of_error {e : ε} {s₁ : σ} (h : x s = .error e s₁) : (x >>= f) s = .error e s₁ := by
  show EStateM.bind x f s = _
  unfold EStateM.bind
  rw [h]

/-! ## The state behind a computation -/

/-- The state, whether or not there was an error. -/
def state : EStateM.Result ε σ α → σ
  | .ok _ s => s
  | .error _ s => s

/-- What holds of the state behind each step holds behind a sequence. -/
theorem state_bind {P : σ → Prop} (hx : P (state (x s))) (hf : ∀ a s, P s → P (state (f a s))) :
    P (state ((x >>= f) s)) := by
  show P (state (EStateM.bind x f s))
  unfold EStateM.bind
  cases h : x s with
  | ok a s₁ =>
      rw [h] at hx
      exact hf a s₁ hx
  | error e s₁ =>
      rw [h] at hx
      exact hx

/-! ## The error of a computation -/

/-- The error, if there is one. -/
def error? : EStateM.Result ε σ α → Option ε
  | .ok _ _ => none
  | .error e _ => some e

@[simp] theorem error?_ok (a : α) : error? (.ok a s : EStateM.Result ε σ α) = none := rfl

@[simp] theorem error?_error (e : ε) : error? (.error e s : EStateM.Result ε σ α) = some e := rfl

theorem error?_eq_none {r : EStateM.Result ε σ α} : error? r = none ↔ ∃ a s, r = .ok a s := by
  cases r <;> simp

/-- A sequence fails with the first error of its steps. -/
theorem error?_bind {d d' : Option ε} (hx : ∀ s, error? (x s) = d)
    (hf : ∀ a s, error? (f a s) = d') (s : σ) : error? ((x >>= f) s) = d.or d' := by
  show error? (EStateM.bind x f s) = _
  rw [← hx s]
  unfold EStateM.bind
  cases x s with
  | ok a s₁ => simp [hf]
  | error e s₁ => rfl

/-- A step whose result is only dressed up fails as it does. -/
theorem error?_bind_pure {d : Option ε} {g : α → β} (hx : ∀ s, error? (x s) = d) (s : σ) :
    error? ((x >>= fun a => pure (g a)) s) = d := by
  have hpure : ∀ a s, error? ((pure (g a) : EStateM ε σ β) s) = none := fun _ _ => rfl
  rw [error?_bind hx hpure, Option.or_none]

end EStateM

/-! ## Two computations with states -/

/-- A result with `f` applied to the error and `g` to the state. -/
def seenThrough {ε ε' σ σ' α : Type} (f : ε → ε') (g : σ → σ') :
    EStateM.Result ε σ α → EStateM.Result ε' σ' α
  | .ok a s => .ok a (g s)
  | .error e s => .error (f e) (g s)

/-- **Doing the same, seen through `f` and `g`.** From the state `g s`, the computation `y` gives what `x`
    gives from `s`, with `f` applied to the error and `g` to the state. -/
def Simulates {ε ε' σ σ' α : Type} (f : ε → ε') (g : σ → σ') (x : EStateM ε σ α)
    (y : EStateM ε' σ' α) : Prop :=
  ∀ s, y (g s) = seenThrough f g (x s)

namespace Simulates

variable {ε ε' σ σ' α β : Type} {f : ε → ε'} {g : σ → σ'} {x : EStateM ε σ α} {y : EStateM ε' σ' α}

theorem pure (a : α) : Simulates f g (Pure.pure a) (Pure.pure a) :=
  fun _ => rfl

theorem throw (e : ε) : Simulates f g (throw e : EStateM ε σ α) (throw (f e)) :=
  fun _ => rfl

/-- Simulation is kept by sequences. -/
theorem bind {h : α → EStateM ε σ β} {h' : α → EStateM ε' σ' β} (hx : Simulates f g x y)
    (hh : ∀ a, Simulates f g (h a) (h' a)) : Simulates f g (x >>= h) (y >>= h') := by
  intro s
  show EStateM.bind y h' (g s) = seenThrough f g (EStateM.bind x h s)
  unfold EStateM.bind
  rw [hx s]
  cases x s with
  | ok a s₁ => exact hh a s₁
  | error e s₁ => rfl

end Simulates

end TinyPascal
