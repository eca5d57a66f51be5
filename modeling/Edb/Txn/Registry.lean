import Mathlib.Algebra.GroupWithZero.Nat
import Edb.Lib.OrdMap

/-!
# The snapshot registry

The latest published version and the number of live snapshots of each version. From the counts
follows the reclamation watermark, the oldest version a live snapshot can still see.

The proofs see the counts through `Registry.Pins`: the versions of the live snapshots, one for
each snapshot.
-/

namespace Edb.Txn

open Edb.Lib

/-- The watermark when no live snapshot constrains reclamation. -/
def unbounded : Nat := 2 ^ 64 - 1

structure Registry where
  /-- The latest committed root. -/
  root : Option Nat
  /-- The latest committed transaction id. -/
  txnId : Nat
  /-- The number of live snapshots of each version that has one, in ascending order. -/
  live : List (Nat × Nat)
  deriving DecidableEq, Repr

namespace Registry

def new (root : Option Nat) (txnId : Nat) : Registry := { root := root, txnId := txnId, live := [] }

/-- Publish a freshly committed version. -/
def publish (root : Option Nat) (txnId : Nat) (r : Registry) : Registry :=
  { r with root := root, txnId := txnId }

/-- Pin the latest committed version. -/
def acquire (r : Registry) : (Option Nat × Nat) × Registry :=
  let count := (OrdMap.find r.txnId r.live).getD 0
  ((r.root, r.txnId), { r with live := OrdMap.insert r.txnId (count + 1) r.live })

/-- Release a snapshot pinned at `txnId`. -/
def release (txnId : Nat) (r : Registry) : Registry :=
  match OrdMap.find txnId r.live with
  | none => r
  | some count =>
      if count - 1 = 0 then { r with live := OrdMap.erase txnId r.live }
      else { r with live := OrdMap.insert txnId (count - 1) r.live }

/-- Releasing leaves the published version. -/
theorem release_published (txnId : Nat) (r : Registry) :
    (r.release txnId).root = r.root ∧ (r.release txnId).txnId = r.txnId := by
  unfold release
  split
  · exact ⟨rfl, rfl⟩
  · split <;> exact ⟨rfl, rfl⟩

/-- The oldest version any live snapshot can see. -/
def watermark (r : Registry) : Nat := ((r.live.map Prod.fst).head?).getD unbounded

/-! ## Live snapshots -/

/-- The live snapshots are pinned at the versions `pins`. -/
structure Pins (r : Registry) (pins : List Nat) : Prop where
  sorted : OrdMap.Sorted r.live
  count : ∀ t, OrdMap.find t r.live = if pins.count t = 0 then none else some (pins.count t)

variable {r : Registry} {pins : List Nat}

theorem pins_new (root : Option Nat) (txnId : Nat) : (new root txnId).Pins [] :=
  ⟨OrdMap.sorted_nil, fun _ => rfl⟩

theorem Pins.publish (h : r.Pins pins) (root : Option Nat) (txnId : Nat) :
    (r.publish root txnId).Pins pins := ⟨h.sorted, h.count⟩

theorem Pins.getD (h : r.Pins pins) (t : Nat) :
    (OrdMap.find t r.live).getD 0 = pins.count t := by
  rw [h.count t]
  split <;> simp_all

/-- A snapshot pins the transaction it is taken at. -/
theorem Pins.acquire (h : r.Pins pins) : r.acquire.2.Pins (r.txnId :: pins) := by
  refine ⟨h.sorted.insert, fun t => ?_⟩
  change OrdMap.find t (OrdMap.insert r.txnId ((OrdMap.find r.txnId r.live).getD 0 + 1) r.live) = _
  rw [OrdMap.find_insert, h.getD, List.count_cons]
  by_cases ht : r.txnId = t
  · subst ht
    simp
  · rw [if_neg ht, h.count t]
    simp [ht]

/-- Dropping a snapshot unpins its transaction once. -/
theorem Pins.release (h : r.Pins pins) {l₁ l₂ : List Nat} {t : Nat}
    (hpins : pins = l₁ ++ t :: l₂) : (r.release t).Pins (l₁ ++ l₂) := by
  have hcount : ∀ t', pins.count t' = (l₁ ++ l₂).count t' + if t = t' then 1 else 0 := by
    intro t'
    rw [hpins, List.count_append, List.count_append, List.count_cons]
    simp only [beq_iff_eq]
    omega
  have hfind : OrdMap.find t r.live = some (pins.count t) := by
    rw [h.count t, if_neg (by rw [hcount t, if_pos rfl]; omega)]
  unfold Registry.release
  rw [hfind]
  have hself : pins.count t - 1 = (l₁ ++ l₂).count t := by rw [hcount t, if_pos rfl]; omega
  by_cases hzero : pins.count t - 1 = 0
  · simp only [hzero, if_true]
    refine ⟨h.sorted.erase, fun t' => ?_⟩
    rw [OrdMap.find_erase]
    by_cases ht : t = t'
    · subst ht
      rw [if_pos rfl, if_pos (hself ▸ hzero)]
    · rw [if_neg ht, h.count t', hcount t', if_neg ht, Nat.add_zero]
  · simp only [hzero, if_false]
    refine ⟨h.sorted.insert, fun t' => ?_⟩
    rw [OrdMap.find_insert]
    by_cases ht : t = t'
    · subst ht
      rw [if_pos rfl, if_neg (hself ▸ hzero), hself]
    · rw [if_neg ht, h.count t', hcount t', if_neg ht, Nat.add_zero]

/-- No live snapshot is older than the watermark. -/
theorem Pins.watermark_le (h : r.Pins pins) {t : Nat} (ht : t ∈ pins) : r.watermark ≤ t := by
  have hpos : pins.count t ≠ 0 := (List.count_pos_iff.mpr ht).ne'
  have hmem : (t, pins.count t) ∈ r.live :=
    OrdMap.mem_of_find (by rw [h.count t, if_neg hpos])
  have hsorted := h.sorted
  unfold watermark
  cases hlive : r.live with
  | nil => rw [hlive] at hmem; cases hmem
  | cons e l =>
      rw [hlive] at hmem hsorted
      simp only [List.map_cons, List.head?_cons, Option.getD_some]
      rcases List.mem_cons.mp hmem with heq | hmem
      · rw [← heq]
      · exact le_of_lt ((OrdMap.sorted_cons.mp hsorted).1 _ hmem)

end Registry

end Edb.Txn
