import Mathlib.Data.List.Forall2

/-!
# Pure computations that may fail

Rules for `Except`: what a sequence does once its first part is known, and what it means that
a sequence, or a traversal of a list, succeeded.
-/

namespace Edb.Lib.Result

variable {ε α β γ : Type}

@[simp] theorem ok_bind (a : α) (f : α → Except ε β) : (Except.ok a >>= f) = f a := rfl

@[simp] theorem error_bind (e : ε) (f : α → Except ε β) :
    ((Except.error e : Except ε α) >>= f) = .error e := rfl

@[simp] theorem pure_eq_ok (a : α) : (pure a : Except ε α) = .ok a := rfl

theorem toOption_eq_some {x : Except ε α} {a : α} (h : x.toOption = some a) : x = .ok a := by
  cases x with
  | error e => cases h
  | ok b =>
    cases h
    rfl

/-- A sequence succeeds exactly when both parts do. -/
theorem bind_eq_ok {x : Except ε α} {f : α → Except ε β} {b : β} :
    (x >>= f) = .ok b ↔ ∃ a, x = .ok a ∧ f a = .ok b := by
  cases x with
  | ok a =>
    constructor
    · intro h
      exact ⟨a, rfl, h⟩
    · intro h
      obtain ⟨a', ha, hf⟩ := h
      cases ha
      exact hf
  | error e =>
    constructor
    · intro h
      cases h
    · intro h
      obtain ⟨a', ha, _⟩ := h
      cases ha

/-- A sequence fails in its first part or, after it, in its second. -/
theorem bind_eq_error {x : Except ε α} {f : α → Except ε β} {e : ε} :
    (x >>= f) = .error e ↔ x = .error e ∨ ∃ a, x = .ok a ∧ f a = .error e := by
  cases x with
  | ok a =>
    constructor
    · intro h
      exact .inr ⟨a, rfl, h⟩
    · intro h
      rcases h with h | ⟨a', ha, hf⟩
      · cases h
      · cases ha
        exact hf
  | error e' =>
    constructor
    · intro h
      cases h
      exact .inl rfl
    · intro h
      rcases h with h | ⟨a', ha, _⟩
      · cases h
        rfl
      · cases ha

/-- A guarded computation succeeds exactly when its guard does not fire and it succeeds. -/
theorem guard_eq_ok {c : Prop} [Decidable c] {e : ε} {x : Except ε α} {a : α} :
    (if c then .error e else x) = .ok a ↔ ¬ c ∧ x = .ok a := by
  by_cases h : c <;> simp [h]

/-- A traversal succeeds exactly when it does at every element. -/
theorem mapM_eq_ok {f : α → Except ε β} {l : List α} {ys : List β} :
    l.mapM f = .ok ys ↔ List.Forall₂ (fun x y => f x = .ok y) l ys := by
  induction l generalizing ys with
  | nil =>
    rw [List.mapM_nil, List.forall₂_nil_left_iff]
    constructor
    · intro h
      cases h
      rfl
    · intro h
      rw [h]
      rfl
  | cons x l ih =>
    rw [List.mapM_cons, bind_eq_ok]
    constructor
    · intro h
      obtain ⟨y, hy, h⟩ := h
      obtain ⟨ys', hys, h⟩ := bind_eq_ok.1 h
      cases h
      exact .cons hy (ih.1 hys)
    · intro h
      cases h with
      | cons hy hys => exact ⟨_, hy, bind_eq_ok.2 ⟨_, ih.2 hys, rfl⟩⟩

/-- Every result of a traversal comes from an element. -/
theorem mem_of_mapM {f : α → Except ε β} {l : List α} {ys : List β} (h : l.mapM f = .ok ys)
    {y : β} (hy : y ∈ ys) : ∃ x ∈ l, f x = .ok y := by
  have hall := mapM_eq_ok.1 h
  clear h
  induction hall with
  | nil => cases hy
  | cons hxy _ ih =>
    rcases List.mem_cons.1 hy with rfl | hy
    · exact ⟨_, List.mem_cons_self, hxy⟩
    · obtain ⟨x, hx, hf⟩ := ih hy
      exact ⟨x, List.mem_cons_of_mem _ hx, hf⟩

/-- Every element of a traversal has its result. -/
theorem exists_of_mapM {f : α → Except ε β} {l : List α} {ys : List β} (h : l.mapM f = .ok ys)
    {x : α} (hx : x ∈ l) : ∃ y ∈ ys, f x = .ok y := by
  have hall := mapM_eq_ok.1 h
  clear h
  induction hall with
  | nil => cases hx
  | cons hxy _ ih =>
    rcases List.mem_cons.1 hx with rfl | hx
    · exact ⟨_, List.mem_cons_self, hxy⟩
    · obtain ⟨y, hy, hf⟩ := ih hx
      exact ⟨y, List.mem_cons_of_mem _ hy, hf⟩

/-- What the results of a traversal are pairwise carries back to its elements. -/
theorem pairwise_of_mapM {f : α → Except ε β} {l : List α} {ys : List β} {S : β → β → Prop}
    {R : α → α → Prop} (h : l.mapM f = .ok ys) (hys : ys.Pairwise S)
    (hR : ∀ x ∈ l, ∀ x' ∈ l, ∀ y y', f x = .ok y → f x' = .ok y' → S y y' → R x x') :
    l.Pairwise R := by
  have hall := mapM_eq_ok.1 h
  clear h
  induction hall with
  | nil => exact .nil
  | @cons x y l ys hxy hall ih =>
    obtain ⟨hy, hys⟩ := List.pairwise_cons.1 hys
    refine .cons (fun x' hx' => ?_) (ih hys (fun a ha b hb =>
      hR a (List.mem_cons_of_mem _ ha) b (List.mem_cons_of_mem _ hb)))
    obtain ⟨y', hy', hf⟩ := exists_of_mapM (mapM_eq_ok.2 hall) hx'
    exact hR x List.mem_cons_self x' (List.mem_cons_of_mem _ hx') y y' hxy hf (hy y' hy')

/-- What the elements of a traversal are pairwise carries over to its results. -/
theorem pairwise_mapM {f : α → Except ε β} {l : List α} {ys : List β} {R : α → α → Prop}
    {S : β → β → Prop} (h : l.mapM f = .ok ys) (hl : l.Pairwise R)
    (hS : ∀ x x' y y', f x = .ok y → f x' = .ok y' → R x x' → S y y') : ys.Pairwise S := by
  have hall := mapM_eq_ok.1 h
  clear h
  induction hall with
  | nil => exact .nil
  | @cons x y l ys hxy hall ih =>
    obtain ⟨hx, hl⟩ := List.pairwise_cons.1 hl
    refine .cons (fun y' hy' => ?_) (ih hl)
    obtain ⟨x', hx', hf⟩ := mem_of_mapM (mapM_eq_ok.2 hall) hy'
    exact hS x x' y y' hxy hf (hx x' hx')

/-- A traversal of elements that all have a result returns. -/
theorem mapM_total {f : α → Except ε β} {l : List α} (h : ∀ x ∈ l, ∃ y, f x = .ok y) :
    ∃ ys, l.mapM f = .ok ys := by
  induction l with
  | nil => exact ⟨[], rfl⟩
  | cons x l ih =>
    obtain ⟨hx, hl⟩ := List.forall_mem_cons.1 h
    obtain ⟨y, hy⟩ := hx
    obtain ⟨ys, hys⟩ := ih hl
    exact ⟨y :: ys, mapM_eq_ok.2 (.cons hy (mapM_eq_ok.1 hys))⟩

/-- A fold whose every step is a fold over steps of its own is the fold over all of these. -/
theorem foldlM_flatMap {σ : Type} {P : α → Prop} {f : β → α → Except ε β}
    {steps : {a // P a} → List σ} {on : β → σ → β}
    (hf : ∀ a b b', f b a.1 = .ok b' → b' = (steps a).foldl on b) :
    ∀ {l : List α} (hl : ∀ a ∈ l, P a) {b b' : β}, l.foldlM f b = .ok b' →
      b' = ((l.attachWith P hl).flatMap steps).foldl on b := by
  intro l
  induction l with
  | nil =>
    intro hl b b' h
    cases h
    rfl
  | cons a l ih =>
    intro hl b b' h
    rw [List.foldlM_cons] at h
    obtain ⟨next, hnext, h⟩ := bind_eq_ok.1 h
    rw [List.attachWith_cons, List.flatMap_cons, List.foldl_append, ← hf _ b next hnext]
    exact ih (fun x hx => hl x (List.mem_cons_of_mem _ hx)) h

/-- A check of every element succeeds exactly when each does. -/
theorem forM_eq_ok {f : α → Except ε Unit} {l : List α} :
    l.forM f = .ok () ↔ ∀ x ∈ l, f x = .ok () := by
  induction l with
  | nil =>
    constructor
    · intro _ x hx
      cases hx
    · intro _
      rfl
  | cons x l ih =>
    show (f x >>= fun _ => l.forM f) = .ok () ↔ _
    rw [bind_eq_ok]
    constructor
    · intro h
      obtain ⟨⟨⟩, hx, hl⟩ := h
      intro y hy
      rcases List.mem_cons.1 hy with rfl | hy
      · exact hx
      · exact ih.1 hl y hy
    · intro h
      exact ⟨(), h x (by simp), ih.2 (fun y hy => h y (List.mem_cons_of_mem _ hy))⟩

/-- A check of every element fails with the error of the first that fails. -/
theorem forM_error {f : α → Except ε Unit} {l : List α} {e : ε} (h : l.forM f = .error e) :
    ∃ before x after, l = before ++ x :: after ∧ (∀ y ∈ before, f y = .ok ()) ∧ f x = .error e := by
  induction l with
  | nil => cases h
  | cons x l ih =>
    rcases bind_eq_error.1 h with hx | ⟨⟨⟩, hx, hl⟩
    · exact ⟨[], x, l, rfl, fun y hy => absurd hy List.not_mem_nil, hx⟩
    · obtain ⟨before, x', after, rfl, hbefore, hx'⟩ := ih hl
      exact ⟨x :: before, x', after, rfl, List.forall_mem_cons.2 ⟨hx, hbefore⟩, hx'⟩

/-- The rule for loops: what every round keeps, the loop keeps. -/
theorem foldlM_invariant {I : β → Prop} {f : β → α → Except ε β} {l : List α} {b b' : β}
    (h : l.foldlM f b = .ok b') (hb : I b)
    (hstep : ∀ x ∈ l, ∀ b b', I b → f b x = .ok b' → I b') : I b' := by
  induction l generalizing b with
  | nil =>
    cases h
    exact hb
  | cons x l ih =>
    rw [List.foldlM_cons] at h
    obtain ⟨c, hc, h⟩ := bind_eq_ok.1 h
    apply ih h (hstep x (by simp) b c hb hc)
    intro y hy
    exact hstep y (List.mem_cons_of_mem _ hy)

/-- Every round of a loop that succeeds does. -/
theorem round_of_foldlM {f : β → α → Except ε β} {l : List α} {b b' : β}
    (h : l.foldlM f b = .ok b') {x : α} (hx : x ∈ l) : ∃ c c', f c x = .ok c' := by
  induction l generalizing b with
  | nil => cases hx
  | cons y l ih =>
    rw [List.foldlM_cons] at h
    obtain ⟨c, hc, h⟩ := bind_eq_ok.1 h
    rcases List.mem_cons.1 hx with rfl | hx
    · exact ⟨b, c, hc⟩
    · exact ih h hx

/-- A change of the accumulator that every step commutes with. -/
theorem foldlM_map {f : β → α → Except ε β} {g : β → β}
    (h : ∀ b x, f (g b) x = (f b x).map g) (l : List α) (b : β) :
    l.foldlM f (g b) = (l.foldlM f b).map g := by
  induction l generalizing b with
  | nil => rfl
  | cons x l ih =>
    rw [List.foldlM_cons, List.foldlM_cons, h]
    cases f b x with
    | error err => rfl
    | ok b' => exact ih b'

/-! ## What a computation leaves -/

/-- The value satisfies `P` or the error satisfies `E`. -/
def Holds (E : ε → Prop) (P : α → Prop) : Except ε α → Prop
  | .ok a => P a
  | .error e => E e

section Holds

variable {E : ε → Prop} {P P' : α → Prop} {Q : β → Prop}

/-- The rule for sequences. -/
theorem Holds.bind {x : Except ε α} {f : α → Except ε β} (hx : Holds E P x)
    (hf : ∀ a, P a → Holds E Q (f a)) : Holds E Q (x >>= f) := by
  cases x with
  | ok a => exact hf a hx
  | error e => exact hx

/-- The rule for branches. -/
theorem Holds.ite {c : Prop} [Decidable c] {x y : Except ε α} (hx : c → Holds E P x)
    (hy : ¬ c → Holds E P y) : Holds E P (if c then x else y) := by
  by_cases h : c
  · rw [if_pos h]
    exact hx h
  · rw [if_neg h]
    exact hy h

theorem Holds.mono {x : Except ε α} (hx : Holds E P x) (h : ∀ a, P a → P' a) :
    Holds E P' x := by
  cases x with
  | ok a => exact h a hx
  | error e => exact hx

/-- The rule for traversals: what holds of every element's result holds of all of them. -/
theorem Holds.mapM {R : α → β → Prop} {f : α → Except ε β} {l : List α}
    (h : ∀ x ∈ l, Holds E (R x) (f x)) : Holds E (List.Forall₂ R l) (l.mapM f) := by
  induction l with
  | nil => exact List.Forall₂.nil
  | cons x l ih =>
    rw [List.mapM_cons]
    apply Holds.bind (h x (by simp))
    intro y hy
    apply Holds.bind (ih (fun z hz => h z (List.mem_cons_of_mem _ hz)))
    intro ys hys
    exact List.Forall₂.cons hy hys

/-- The rule for folds. -/
theorem Holds.foldlM {f : β → α → Except ε β} {l : List α} {b : β}
    (h : ∀ b, ∀ x ∈ l, Q b → Holds E Q (f b x)) (hb : Q b) : Holds E Q (l.foldlM f b) := by
  induction l generalizing b with
  | nil => exact hb
  | cons x l ih =>
    rw [List.foldlM_cons]
    apply Holds.bind (h b x (by simp) hb)
    intro b' hb'
    exact ih (fun b y hy => h b y (List.mem_cons_of_mem _ hy)) hb'

/-- What holds of each result alone holds of every value a traversal returns. -/
theorem Holds.mapM_forall {f : α → Except ε β} {l : List α}
    (h : ∀ x ∈ l, Holds E Q (f x)) : Holds E (fun ys => ∀ y ∈ ys, Q y) (l.mapM f) := by
  apply (Holds.mapM (R := fun _ => Q) h).mono
  intro ys hys
  induction hys with
  | nil =>
    intro y hy
    cases hy
  | cons hy _ ih =>
    intro z hz
    rcases List.mem_cons.1 hz with rfl | hz
    · exact hy
    · exact ih (fun x hx => h x (List.mem_cons_of_mem _ hx)) z hz

end Holds

end Edb.Lib.Result
