import Mathlib.Algebra.Order.BigOperators.Group.List
import Mathlib.Algebra.Order.Group.Nat
import Mathlib.Data.DFinsupp.WellFounded

/-!
# Levels

A measure with finitely many levels, the lower ones weighing more: a step that lowers one level
and raises no lower one cannot be repeated forever, whatever it does to the levels above. A level
is often a sum of what is left to do for each of some things.
-/

namespace Edb.Lib.Levels

/-- One level falls and no lower one rises. -/
def Drops (top : Nat) (a b : Nat → Nat) : Prop :=
  ∃ k, k ≤ top ∧ a k < b k ∧ ∀ j, j < k → a j ≤ b j

theorem drops_wellFounded (top : Nat) : WellFounded (Drops top) := by
  have hlex : WellFounded (Pi.Lex (fun i j : Fin (top + 1) => i < j)
      (fun {_} => ((· < ·) : Nat → Nat → Prop))) :=
    Pi.Lex.wellFounded _ (fun _ => wellFounded_lt)
  refine Subrelation.wf (r := InvImage _ (fun (a : Nat → Nat) (i : Fin (top + 1)) => a i)) ?_
    (InvImage.wf _ hlex)
  intro a b hab
  obtain ⟨k, hk, hlt, hle⟩ := hab
  -- the first level at which the two differ
  have hex : ∃ j, a j < b j := ⟨k, hlt⟩
  have hfirst : Nat.find hex ≤ k := Nat.find_min' hex hlt
  refine ⟨⟨Nat.find hex, by omega⟩, ?_, Nat.find_spec hex⟩
  intro j hj
  have hj : j.val < Nat.find hex := hj
  exact le_antisymm (hle j (by omega)) (not_lt.1 (Nat.find_min hex hj))

/-- A sum of which no term rises falls by what one term falls. -/
theorem sum_map_add_le {α : Type} {l : List α} {f g : α → Nat} {a : α} {n : Nat}
    (h : ∀ x ∈ l, f x ≤ g x) (ha : a ∈ l) (hn : f a + n ≤ g a) :
    (l.map f).sum + n ≤ (l.map g).sum := by
  induction l with
  | nil => cases ha
  | cons b l ih =>
    have hb : f b ≤ g b := h b (by simp)
    have hl : ∀ x ∈ l, f x ≤ g x := fun x hx => h x (List.mem_cons_of_mem _ hx)
    rw [List.map_cons, List.map_cons, List.sum_cons, List.sum_cons]
    rcases List.mem_cons.1 ha with rfl | ha
    · have := List.sum_le_sum hl
      omega
    · have := ih hl ha
      omega

end Edb.Lib.Levels
