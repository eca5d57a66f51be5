import Edb.Lib.Outcome

/-!
# Simulating a stateful computation by a pure one

`Simulates R x s out Q`: run from `s`, the stateful computation `x` succeeds or fails as the pure
computation `out` does and with the same error, moving the state along `R` in either case; when
both succeed, their results and the final state are related by `Q`. The relation `R` carries a
trace of what was consumed on the way, which concatenates along a sequence.
-/

namespace Edb.Lib

variable {ε σ ι α β γ δ : Type} {R : σ → List ι → σ → Prop}

/-- The stateful `x` does from `s` what the pure `out` does. -/
def Simulates (R : σ → List ι → σ → Prop) (x : EStateM ε σ β) (s : σ) (out : Except ε γ)
    (Q : β → γ → List ι → σ → Prop) : Prop :=
  match out with
  | .ok c => ∃ b s' tr, x s = .ok b s' ∧ R s tr s' ∧ Q b c tr s'
  | .error e => ∃ s' tr, x s = .error e s' ∧ R s tr s'

namespace Simulates

variable {x : EStateM ε σ α} {f : α → EStateM ε σ β} {s : σ}
variable {out : Except ε γ} {g : γ → Except ε δ}

/-- A program that succeeds does what the pure result says. -/
theorem of_ok {Q : α → γ → List ι → σ → Prop} {a : α} {s' : σ} (h : Simulates R x s out Q)
    (hrun : x s = .ok a s') : ∃ c tr, R s tr s' ∧ Q a c tr s' := by
  cases out with
  | ok c =>
    obtain ⟨b, s'', tr, hrun', hR, hQ⟩ := h
    rw [hrun] at hrun'
    cases hrun'
    exact ⟨c, tr, hR, hQ⟩
  | error e =>
    obtain ⟨s'', tr, hrun', -⟩ := h
    rw [hrun] at hrun'
    cases hrun'

theorem mono {Q Q' : α → γ → List ι → σ → Prop} (h : Simulates R x s out Q)
    (hQ : ∀ a c tr s', R s tr s' → Q a c tr s' → Q' a c tr s') : Simulates R x s out Q' := by
  cases out with
  | error e => exact h
  | ok c =>
      obtain ⟨b, s', tr, hx, hR, hq⟩ := h
      exact ⟨b, s', tr, hx, hR, hQ b c tr s' hR hq⟩

/-- The pure result is the one the pure computation returned. -/
theorem attach {Q : α → γ → List ι → σ → Prop} (h : Simulates R x s out Q) :
    Simulates R x s out fun a c tr s' => out = .ok c ∧ Q a c tr s' := by
  cases out with
  | error e => exact h
  | ok c =>
      obtain ⟨b, s', tr, hx, hR, hq⟩ := h
      exact ⟨b, s', tr, hx, hR, rfl, hq⟩

/-- Simulations compose along a sequence. -/
theorem bind (htrans : ∀ {a b c l l'}, R a l b → R b l' c → R a (l ++ l') c)
    {Q : α → γ → List ι → σ → Prop} {Q' : β → δ → List ι → σ → Prop}
    (hx : Simulates R x s out Q)
    (hf : ∀ a c tr s', R s tr s' → Q a c tr s' →
      Simulates R (f a) s' (g c) fun b d tr' s'' => Q' b d (tr ++ tr') s'') :
    Simulates R (x >>= f) s (out >>= g) Q' := by
  cases out with
  | error e =>
      obtain ⟨s', tr, hx, hR⟩ := hx
      exact ⟨s', tr, bind_of_error hx, hR⟩
  | ok c =>
      obtain ⟨a, s', tr, hx, hR, hq⟩ := hx
      have h := hf a c tr s' hR hq
      change Simulates R (x >>= f) s (g c) Q'
      unfold Simulates at h ⊢
      cases hg : g c with
      | error e =>
          rw [hg] at h
          obtain ⟨s'', tr', hfa, hR'⟩ := h
          exact ⟨s'', tr ++ tr', (bind_of_ok hx).trans hfa, htrans hR hR'⟩
      | ok d =>
          rw [hg] at h
          obtain ⟨b, s'', tr', hfa, hR', hq'⟩ := h
          exact ⟨b, s'', tr ++ tr', (bind_of_ok hx).trans hfa, htrans hR hR', hq'⟩

/-- A step that the pure computation does not take. -/
theorem step (htrans : ∀ {a b c l l'}, R a l b → R b l' c → R a (l ++ l') c)
    {Q : β → γ → List ι → σ → Prop} {a : α} {s' : σ} {tr : List ι} (hx : x s = .ok a s')
    (hR : R s tr s')
    (hf : Simulates R (f a) s' out fun b c tr' s'' => Q b c (tr ++ tr') s'') :
    Simulates R (x >>= f) s out Q :=
  have hstep : Simulates R x s (.ok ()) fun a' _ l t => a' = a ∧ l = tr ∧ t = s' :=
    ⟨a, s', tr, hx, hR, rfl, rfl, rfl⟩
  bind (g := fun _ => out) htrans hstep (by
    rintro a' c l t hR' ⟨rfl, rfl, rfl⟩
    exact hf)

theorem ret {Q : α → γ → List ι → σ → Prop} {a : α} {c : γ} (hrefl : R s [] s)
    (hQ : Q a c [] s) : Simulates R (pure a : EStateM ε σ α) s (.ok c) Q :=
  ⟨a, s, [], rfl, hrefl, hQ⟩

end Simulates

end Edb.Lib
