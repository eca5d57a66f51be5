import Mathlib.Logic.Basic
import Mathlib.Algebra.GroupWithZero.Nat

/-!
# Reasoning about stateful computations that may fail

`EStateM ε σ α` keeps the state a failing computation leaves behind, which is what a
program with in-place effects and early returns does. Two kinds of facts are used about
such programs:

* **inversion** (`bind_eq_ok`, `bind_eq_error`): from the outcome of a sequence, the
  outcomes of its parts;
* **step relations** (`Always`): a relation between the state before and the state after
  that holds whatever the outcome is, closed under sequencing when it is transitive;
* **answers** (`Answers`): a computation that only reads returns, from any state of a class, what
  a pure one does.
-/

namespace Edb.Lib

variable {ε σ α β : Type}

/-! ## Inversion -/

/-- A sequence succeeds exactly when both parts do, one after the other. -/
theorem bind_eq_ok {x : EStateM ε σ α} {f : α → EStateM ε σ β} {s s' : σ} {b : β} :
    (x >>= f) s = .ok b s' ↔ ∃ a s₁, x s = .ok a s₁ ∧ f a s₁ = .ok b s' := by
  change EStateM.bind x f s = .ok b s' ↔ _
  unfold EStateM.bind
  constructor
  · intro h
    split at h
    next a s₁ hx => exact ⟨a, s₁, hx, h⟩
    next => cases h
  · rintro ⟨a, s₁, hx, hf⟩
    rw [hx]
    exact hf

/-- A sequence fails either in its first part or, after it, in its second. -/
theorem bind_eq_error {x : EStateM ε σ α} {f : α → EStateM ε σ β} {s s' : σ} {e : ε} :
    (x >>= f) s = .error e s' ↔
      x s = .error e s' ∨ ∃ a s₁, x s = .ok a s₁ ∧ f a s₁ = .error e s' := by
  change EStateM.bind x f s = .error e s' ↔ _
  unfold EStateM.bind
  constructor
  · intro h
    split at h
    next a s₁ hx => exact .inr ⟨a, s₁, hx, h⟩
    next e' s₁ hx =>
      cases h
      exact .inl hx
  · rintro (hx | ⟨a, s₁, hx, hf⟩)
    · rw [hx]
    · rw [hx]
      exact hf

theorem bind_of_ok {x : EStateM ε σ α} {f : α → EStateM ε σ β} {s s₁ : σ} {a : α}
    (hx : x s = .ok a s₁) : (x >>= f) s = f a s₁ := by
  change EStateM.bind x f s = _
  unfold EStateM.bind
  rw [hx]

theorem bind_of_error {x : EStateM ε σ α} {f : α → EStateM ε σ β} {s s₁ : σ} {e : ε}
    (hx : x s = .error e s₁) : (x >>= f) s = .error e s₁ := by
  change EStateM.bind x f s = _
  unfold EStateM.bind
  rw [hx]

@[simp] theorem pure_apply (a : α) (s : σ) : (pure a : EStateM ε σ α) s = .ok a s := rfl

@[simp] theorem throw_apply (e : ε) (s : σ) : (throw e : EStateM ε σ α) s = .error e s := rfl

@[simp] theorem get_apply (s : σ) : (get : EStateM ε σ σ) s = .ok s s := rfl

@[simp] theorem set_apply (s s' : σ) : (set s' : EStateM ε σ PUnit) s = .ok ⟨⟩ s' := rfl

@[simp] theorem modify_apply (g : σ → σ) (s : σ) :
    (modify g : EStateM ε σ PUnit) s = .ok ⟨⟩ (g s) := rfl

/-! ## Relations every outcome respects -/

/-- The state a computation leaves behind, whether it succeeds or fails. -/
def endState : EStateM.Result ε σ α → σ
  | .ok _ s => s
  | .error _ s => s

@[simp] theorem endState_ok (a : α) (s : σ) :
    endState (.ok a s : EStateM.Result ε σ α) = s := rfl

@[simp] theorem endState_error (e : ε) (s : σ) :
    endState (.error e s : EStateM.Result ε σ α) = s := rfl

/-- `x` moves the state along `R`, whatever its outcome. -/
def Always (R : σ → σ → Prop) (x : EStateM ε σ α) : Prop :=
  ∀ s, R s (endState (x s))

section Always

variable {R : σ → σ → Prop}

theorem Always.pure (hrefl : ∀ s, R s s) (a : α) :
    Always R (Pure.pure a : EStateM ε σ α) := fun s => hrefl s

theorem Always.throw (hrefl : ∀ s, R s s) (e : ε) :
    Always R (MonadExcept.throw e : EStateM ε σ α) := fun s => hrefl s

/-- Step relations compose along a sequence. -/
theorem Always.bind (htrans : ∀ {a b c}, R a b → R b c → R a c)
    {x : EStateM ε σ α} {f : α → EStateM ε σ β}
    (hx : Always R x) (hf : ∀ a, Always R (f a)) : Always R (x >>= f) := by
  intro s
  have h₁ := hx s
  cases hxs : x s with
  | ok a s₁ =>
      rw [hxs, endState_ok] at h₁
      rw [bind_of_ok hxs]
      exact htrans h₁ (hf a s₁)
  | error e s₁ =>
      rw [hxs, endState_error] at h₁
      rw [bind_of_error hxs]
      exact h₁

theorem Always.of_ok {x : EStateM ε σ α} (hx : Always R x) {s s' : σ} {a : α}
    (h : x s = .ok a s') : R s s' := by
  have := hx s
  rwa [h] at this

end Always

/-! ## What a reading computation returns -/

/-- The outcome of a pure computation, in a state. -/
def inState (s : σ) : Except ε α → EStateM.Result ε σ α
  | .ok a => .ok a s
  | .error e => .error e s

/-- From every state of `I` the computation returns what the pure one does, and stays in `I`. -/
def Answers (I : σ → Prop) (x : EStateM ε σ α) (y : Except ε α) : Prop :=
  ∀ s, I s → ∃ s', I s' ∧ x s = inState s' y

section Answers

variable {I : σ → Prop}

theorem Answers.pure (a : α) : Answers I (Pure.pure a : EStateM ε σ α) (.ok a) :=
  fun s hs => ⟨s, hs, rfl⟩

theorem Answers.throw (e : ε) : Answers I (MonadExcept.throw e : EStateM ε σ α) (.error e) :=
  fun s hs => ⟨s, hs, rfl⟩

/-- Answers follow one another. -/
theorem Answers.bind {x : EStateM ε σ α} {y : Except ε α} {f : α → EStateM ε σ β}
    {g : α → Except ε β} (hx : Answers I x y) (hf : ∀ a, y = .ok a → Answers I (f a) (g a)) :
    Answers I (x >>= f) (y >>= g) := by
  intro s hs
  obtain ⟨s₁, hs₁, hrun⟩ := hx s hs
  cases y with
  | ok a =>
      rw [bind_of_ok hrun]
      exact hf a rfl s₁ hs₁
  | error e => exact ⟨s₁, hs₁, bind_of_error hrun⟩

end Answers

end Edb.Lib
