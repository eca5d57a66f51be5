import Mathlib.Logic.Relation

/-!
# Programs of atomic operations in an environment

A `Prog` is a program that performs atomic operations on a shared state and continues with their
responses. While it runs, an environment moves the shared state between any two operations.

`Triple` is the specification of such a program: from a state in `P`, an invariant `I` holds in
every state reached, and `Q` whenever the program has returned. What is asserted along a proof
has to be stable under the environment and to imply `I` (`Assertion`).
-/

namespace Edb.Lib

/-- A program of operations `op`, each with a response in `Res op`. -/
inductive Prog (Op : Type) (Res : Op → Type) (α : Type) : Type
  | ret (a : α)
  | call (op : Op) (k : Res op → Prog Op Res α)

namespace Prog

variable {Op : Type} {Res : Op → Type} {α β : Type}

def bind : Prog Op Res α → (α → Prog Op Res β) → Prog Op Res β
  | ret a, f => f a
  | call op k, f => call op fun r => (k r).bind f

instance : Monad (Prog Op Res) where
  pure := ret
  bind := bind

/-- One operation, returning its response. -/
def perform (op : Op) : Prog Op Res (Res op) := call op ret

@[simp] theorem pure_eq (a : α) : (pure a : Prog Op Res α) = ret a := rfl

@[simp] theorem ret_bind (a : α) (f : α → Prog Op Res β) : ret a >>= f = f a := rfl

@[simp] theorem call_bind (op : Op) (k : Res op → Prog Op Res α) (f : α → Prog Op Res β) :
    call op k >>= f = call op fun r => k r >>= f := rfl

/-! ## Interleaved runs -/

section Runs

variable {σ : Type} (exec : (op : Op) → σ → Res op × σ) (env : σ → σ → Prop)

/-- One step: the program performs its next operation, or the environment moves. -/
inductive Step : Prog Op Res α × σ → Prog Op Res α × σ → Prop
  | act (op : Op) (k : Res op → Prog Op Res α) (s : σ) :
      Step (call op k, s) (k (exec op s).1, (exec op s).2)
  | env (p : Prog Op Res α) {s s' : σ} : env s s' → Step (p, s) (p, s')

/-- Any number of steps. -/
def Reaches : Prog Op Res α × σ → Prog Op Res α × σ → Prop := Relation.ReflTransGen (Step exec env)

/-- `n` operations of the program, with nothing between them. -/
def advance : Nat → Prog Op Res α × σ → Prog Op Res α × σ
  | 0, c => c
  | _ + 1, (ret a, s) => (ret a, s)
  | n + 1, (call op k, s) => advance n (k (exec op s).1, (exec op s).2)

/-- The environment keeps the assertion. -/
def Stable (P : σ → Prop) : Prop := ∀ s s', env s s' → P s → P s'

variable {exec env}

theorem reaches_advance (n : Nat) (c : Prog Op Res α × σ) :
    Reaches exec env c (advance exec n c) := by
  induction n generalizing c with
  | zero => exact .refl
  | succ n ih =>
      obtain ⟨p, s⟩ := c
      cases p with
      | ret a => exact .refl
      | call op k => exact .head (.act op k s) (ih _)

/-- A run of a sequence is a run of its first part, or one that has gone on to the second. -/
theorem Reaches.of_bind {p : Prog Op Res α} {f : α → Prog Op Res β} {s : σ}
    {c : Prog Op Res β × σ} (h : Reaches exec env (p >>= f, s) c) :
    (∃ p' s', Reaches exec env (p, s) (p', s') ∧ c = (p' >>= f, s')) ∨
      ∃ a s', Reaches exec env (p, s) (ret a, s') ∧ Reaches exec env (f a, s') c := by
  induction h with
  | refl => exact .inl ⟨p, s, .refl, rfl⟩
  | @tail c₁ c₂ _ hstep ih =>
      rcases ih with ⟨p', s', hreach, rfl⟩ | ⟨a, s', hreach, hrest⟩
      · cases p' with
        | ret a => exact .inr ⟨a, s', hreach, .single hstep⟩
        | call op k =>
            rw [call_bind] at hstep
            cases hstep with
            | act => exact .inl ⟨k (exec op s').1, (exec op s').2, hreach.tail (.act op k s'), rfl⟩
            | env _ henv => exact .inl ⟨call op k, _, hreach.tail (.env _ henv), rfl⟩
      · exact .inr ⟨a, s', hreach, hrest.tail hstep⟩

/-- A run of a sequence that has returned is one of its first part that has, and one of the
second. -/
theorem Reaches.bind_ret {p : Prog Op Res α} {f : α → Prog Op Res β} {s s'' : σ} {b : β}
    (h : Reaches exec env (p >>= f, s) (ret b, s'')) :
    ∃ a s', Reaches exec env (p, s) (ret a, s') ∧ Reaches exec env (f a, s') (ret b, s'') := by
  rcases h.of_bind with ⟨p', s', hreach, heq⟩ | ⟨a, s', hreach, hrest⟩
  · cases p' with
    | ret a =>
        rw [ret_bind] at heq
        rw [heq]
        exact ⟨a, s', hreach, .refl⟩
    | call op k => cases heq
  · exact ⟨a, s', hreach, hrest⟩

/-- A run from an operation has not performed it yet, or has. -/
theorem Reaches.of_call {op : Op} {k : Res op → Prog Op Res α} {P : σ → Prop} {s : σ}
    {c : Prog Op Res α × σ} (hP : Stable env P) (hs : P s)
    (h : Reaches exec env (call op k, s) c) :
    (∃ s', P s' ∧ c = (call op k, s')) ∨
      ∃ s', P s' ∧ Reaches exec env (k (exec op s').1, (exec op s').2) c := by
  induction h with
  | refl => exact .inl ⟨s, hs, rfl⟩
  | @tail c₁ c₂ _ hstep ih =>
      rcases ih with ⟨s', hs', rfl⟩ | ⟨s', hs', hrest⟩
      · cases hstep with
        | act => exact .inr ⟨s', hs', .refl⟩
        | env _ henv => exact .inl ⟨_, hP _ _ henv hs', rfl⟩
      · exact .inr ⟨s', hs', hrest.tail hstep⟩

theorem Reaches.of_ret {a : α} {P : σ → Prop} {s : σ} {c : Prog Op Res α × σ}
    (hP : Stable env P) (hs : P s) (h : Reaches exec env (ret a, s) c) :
    ∃ s', P s' ∧ c = (ret a, s') := by
  induction h with
  | refl => exact ⟨s, hs, rfl⟩
  | tail _ hstep ih =>
      obtain ⟨s', hs', rfl⟩ := ih
      cases hstep with
      | env _ henv => exact ⟨_, hP _ _ henv hs', rfl⟩

/-- A run of one operation that has returned: what is asserted before and after it. -/
theorem Reaches.perform_ret {op : Op} {P Q : σ → Prop} {s s' : σ} {r : Res op}
    (h : Reaches exec env (perform op, s) (ret r, s')) (hP : Stable env P) (hs : P s)
    (hQ : Stable env Q) (hexec : ∀ s, P s → Q (exec op s).2) : Q s' := by
  rcases h.of_call hP hs with ⟨s₁, -, heq⟩ | ⟨s₁, hs₁, hrest⟩
  · cases heq
  · obtain ⟨s₂, hs₂, heq⟩ := hrest.of_ret hQ (hexec s₁ hs₁)
    cases heq
    exact hs₂

end Runs

/-! ## Specifications -/

section Triples

variable {σ : Type} (exec : (op : Op) → σ → Res op × σ) (env : σ → σ → Prop)
variable (I : σ → Prop)

/-- From a state in `P`, `I` holds in every state reached, and `Q` in those where the program has
returned. -/
def Triple (P : σ → Prop) (p : Prog Op Res α) (Q : α → σ → Prop) : Prop :=
  ∀ s, P s → ∀ c, Reaches exec env (p, s) c → I c.2 ∧ ∀ a, c.1 = ret a → Q a c.2

/-- What may be asserted between two operations. -/
structure Assertion (P : σ → Prop) : Prop where
  stable : Stable env P
  holds : ∀ s, P s → I s

variable {exec env I}

namespace Assertion

variable {P P' : σ → Prop}

theorem and (h : Assertion env I P) (h' : Stable env P') :
    Assertion env I (fun s => P s ∧ P' s) :=
  ⟨fun s s' hstep hs => ⟨h.stable s s' hstep hs.1, h' s s' hstep hs.2⟩, fun s hs => h.holds s hs.1⟩

theorem of_exists {ι : Sort _} {P : ι → σ → Prop} (h : ∀ i, Assertion env I (P i)) :
    Assertion env I (fun s => ∃ i, P i s) := by
  refine ⟨?_, ?_⟩
  · rintro s s' hstep ⟨i, hs⟩
    exact ⟨i, (h i).stable s s' hstep hs⟩
  · rintro s ⟨i, hs⟩
    exact (h i).holds s hs

/-- A condition that does not depend on the state may be assumed. -/
theorem of_imp {a : Prop} (h : a → Assertion env I P) : Assertion env I (fun s => a ∧ P s) :=
  ⟨fun s s' hstep hs => ⟨hs.1, (h hs.1).stable s s' hstep hs.2⟩, fun s hs => (h hs.1).holds s hs.2⟩

end Assertion

namespace Triple

variable {P P' : σ → Prop} {p : Prog Op Res α} {f : α → Prog Op Res β} {Q Q' : α → σ → Prop}

theorem ret {a : α} (hP : Assertion env I P) (hQ : ∀ s, P s → Q a s) :
    Triple exec env I P (Prog.ret a) Q := by
  intro s hs c hc
  obtain ⟨s', hs', rfl⟩ := hc.of_ret hP.stable hs
  refine ⟨hP.holds s' hs', fun b hb => ?_⟩
  cases hb
  exact hQ s' hs'

theorem call {op : Op} {k : Res op → Prog Op Res α} (hP : Assertion env I P)
    (hk : ∀ s, P s → Triple exec env I (fun s' => s' = (exec op s).2) (k (exec op s).1) Q) :
    Triple exec env I P (.call op k) Q := by
  intro s hs c hc
  rcases hc.of_call hP.stable hs with ⟨s', hs', rfl⟩ | ⟨s', hs', hrest⟩
  · exact ⟨hP.holds s' hs', fun b hb => nomatch hb⟩
  · exact hk s' hs' _ rfl c hrest

theorem bind {R : β → σ → Prop} (hp : Triple exec env I P p Q)
    (hf : ∀ a, Triple exec env I (Q a) (f a) R) : Triple exec env I P (p >>= f) R := by
  intro s hs c hc
  rcases hc.of_bind with ⟨p', s', hreach, rfl⟩ | ⟨a, s', hreach, hrest⟩
  · cases p' with
    | ret a => exact hf a s' ((hp s hs _ hreach).2 a rfl) _ .refl
    | call op k => exact ⟨(hp s hs _ hreach).1, fun b hb => nomatch hb⟩
  · exact hf a s' ((hp s hs _ hreach).2 a rfl) c hrest

theorem mono (hp : Triple exec env I P p Q) (hP : ∀ s, P' s → P s)
    (hQ : ∀ a s, Q a s → Q' a s) : Triple exec env I P' p Q' :=
  fun s hs c hc => ⟨(hp s (hP s hs) c hc).1, fun a ha => hQ a _ ((hp s (hP s hs) c hc).2 a ha)⟩

/-- An assertion with a witness: the program is specified for each witness. -/
theorem exists_pre {ι : Type} {P : ι → σ → Prop}
    (hp : ∀ i, Triple exec env I (P i) p Q) : Triple exec env I (fun s => ∃ i, P i s) p Q := by
  rintro s ⟨i, hs⟩
  exact hp i s hs

/-- A condition that does not depend on the state may be assumed. -/
theorem of_imp {a : Prop} (hp : a → Triple exec env I P p Q) :
    Triple exec env I (fun s => a ∧ P s) p Q := by
  rintro s ⟨ha, hs⟩
  exact hp ha s hs

/-- What the assertion implies for every state may be assumed. -/
theorem of_pre {a : Prop} (ha : ∀ s, P s → a) (hp : a → Triple exec env I P p Q) :
    Triple exec env I P p Q := fun s hs => hp (ha s hs) s hs

/-- One operation that leads from `P` to `Q`. -/
theorem perform {op : Op} {Q : Res op → σ → Prop} (hP : Assertion env I P)
    (hQ : ∀ r, Assertion env I (Q r)) (hexec : ∀ s, P s → Q (exec op s).1 (exec op s).2) :
    Triple exec env I P (Prog.perform op) Q := by
  refine call hP fun s hs => ?_
  refine mono (ret (hQ _) fun _ h => h) ?_ fun _ _ h => h
  rintro s' rfl
  exact hexec s hs

end Triple

end Triples

end Prog

end Edb.Lib
