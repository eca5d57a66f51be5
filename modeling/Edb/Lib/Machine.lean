/-!
# Machines

A machine takes an input and gives an output, going from state to state. One machine is another
seen through a function of its states (`Abstracts`) when, as long as an invariant holds, they give
the same outputs and their states go on corresponding; then the two cannot be told apart along any
series of inputs (`Abstracts.trace_eq`). What a series of inputs and outputs adds up to is kept in
step with the state by an invariant of the two together (`foldl_trace`).
-/

namespace Edb.Lib

variable {σ τ ι ο γ : Type}

/-- The inputs of a run, each with the output it gets. -/
def trace (step : σ → ι → ο × σ) (s : σ) : List ι → List (ι × ο)
  | [] => []
  | i :: is => (i, (step s i).1) :: trace step (step s i).2 is

/-- The state a run ends in. -/
def final (step : σ → ι → ο × σ) (s : σ) (is : List ι) : σ := is.foldl (fun s i => (step s i).2) s

@[simp] theorem final_nil (step : σ → ι → ο × σ) (s : σ) : final step s [] = s := rfl

@[simp] theorem final_cons (step : σ → ι → ο × σ) (s : σ) (i : ι) (is : List ι) :
    final step s (i :: is) = final step (step s i).2 is := rfl

/-- What holds of a state and of what the events before it add up to holds to the end of a run. -/
theorem foldl_trace {step : σ → ι → ο × σ} {f : γ → ι × ο → γ} {I : σ → γ → Prop}
    (hstep : ∀ s g i, I s g → I (step s i).2 (f g (i, (step s i).1))) {s : σ} {g : γ} (h : I s g)
    (is : List ι) : I (final step s is) ((trace step s is).foldl f g) := by
  induction is generalizing s g with
  | nil => exact h
  | cons i is ih => exact ih (hstep s g i h)

/-- As long as `inv` holds, `step` is `step'` seen through `abs`. -/
structure Abstracts (step : σ → ι → ο × σ) (inv : σ → Prop) (abs : σ → τ)
    (step' : τ → ι → ο × τ) : Prop where
  keeps : ∀ s i, inv s → inv (step s i).2
  output : ∀ s i, inv s → (step s i).1 = (step' (abs s) i).1
  state : ∀ s i, inv s → abs (step s i).2 = (step' (abs s) i).2

namespace Abstracts

variable {step : σ → ι → ο × σ} {inv : σ → Prop} {abs : σ → τ} {step' : τ → ι → ο × τ}

theorem trace_eq (h : Abstracts step inv abs step') {s : σ} (hs : inv s) (is : List ι) :
    trace step s is = trace step' (abs s) is := by
  induction is generalizing s with
  | nil => rfl
  | cons i is ih => rw [trace, trace, h.output s i hs, ih (h.keeps s i hs), h.state s i hs]

theorem final_eq (h : Abstracts step inv abs step') {s : σ} (hs : inv s) (is : List ι) :
    inv (final step s is) ∧ abs (final step s is) = final step' (abs s) is := by
  induction is generalizing s with
  | nil => exact ⟨hs, rfl⟩
  | cons i is ih =>
    rw [final_cons, final_cons, ← h.state s i hs]
    exact ih (h.keeps s i hs)

end Abstracts

end Edb.Lib
