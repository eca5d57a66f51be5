import Mathlib.Data.List.Basic
import Mathlib.Data.List.Pairwise
import Mathlib.Data.List.TakeWhile
import Mathlib.Order.Lattice

/-!
# Finite ordered maps as sorted association lists

A finite map over a linearly ordered key type is the list of its bindings in strictly
ascending key order. `insert`, `erase` and `find` are the map operations; the lemmas say
how they commute with concatenation when the key lies on one side of it, which is what a
tree that stores a map in pieces needs.
-/

namespace Edb.Lib.OrdMap

variable {K V : Type} [LinearOrder K]

/-- The bindings are in strictly ascending key order. -/
def Sorted (l : List (K × V)) : Prop := l.Pairwise (fun a b => a.1 < b.1)

/-- The value bound to `k`. -/
def find (k : K) : List (K × V) → Option V
  | [] => none
  | (k', v) :: l => if k' = k then some v else find k l

/-- Bind `k` to `v`, replacing an earlier binding. -/
def insert (k : K) (v : V) : List (K × V) → List (K × V)
  | [] => [(k, v)]
  | (k', v') :: l =>
      if k < k' then (k, v) :: (k', v') :: l
      else if k = k' then (k, v) :: l
      else (k', v') :: insert k v l

/-- Remove the binding of `k`, if there is one. -/
def erase (k : K) (l : List (K × V)) : List (K × V) := l.filter (fun e => e.1 ≠ k)

@[simp] theorem sorted_nil : Sorted ([] : List (K × V)) := List.Pairwise.nil

theorem sorted_cons {e : K × V} {l : List (K × V)} :
    Sorted (e :: l) ↔ (∀ e' ∈ l, e.1 < e'.1) ∧ Sorted l := List.pairwise_cons

theorem sorted_append {l₁ l₂ : List (K × V)} :
    Sorted (l₁ ++ l₂) ↔ Sorted l₁ ∧ Sorted l₂ ∧ ∀ a ∈ l₁, ∀ b ∈ l₂, a.1 < b.1 :=
  List.pairwise_append

theorem Sorted.sublist {l₁ l₂ : List (K × V)} (h : Sorted l₂) (hs : l₁.Sublist l₂) :
    Sorted l₁ := List.Pairwise.sublist hs h

theorem Sorted.keys {l : List (K × V)} (h : Sorted l) : (l.map Prod.fst).Pairwise (· < ·) :=
  List.pairwise_map.mpr h

/-! ## Lookup -/

theorem find_insert (k k' : K) (v : V) (l : List (K × V)) :
    find k' (insert k v l) = if k = k' then some v else find k' l := by
  induction l with
  | nil => rfl
  | cons e l ih =>
      obtain ⟨k₀, v₀⟩ := e
      unfold insert
      by_cases hlt : k < k₀
      · simp [hlt, find]
      · by_cases heq : k = k₀
        · subst heq
          by_cases hk : k = k' <;> simp [find, hk]
        · by_cases hk : k₀ = k'
          · subst hk
            simp [hlt, heq, find]
          · simp [hlt, heq, find, ih, hk]

theorem find_erase (k k' : K) (l : List (K × V)) :
    find k' (erase k l) = if k = k' then none else find k' l := by
  induction l with
  | nil => by_cases h : k = k' <;> simp [erase, find, h]
  | cons e l ih =>
      obtain ⟨k₀, v₀⟩ := e
      unfold erase at ih ⊢
      by_cases hk : k₀ = k
      · subst hk
        by_cases h : k₀ = k' <;> simp_all [find]
      · by_cases h : k₀ = k'
        · subst h
          have hne : ¬ k = k₀ := fun h => hk h.symm
          simp [find, hk, hne]
        · simp_all [find]

theorem find_eq_none_of_forall_ne {k : K} {l : List (K × V)} (h : ∀ e ∈ l, e.1 ≠ k) :
    find k l = none := by
  induction l with
  | nil => rfl
  | cons e l ih =>
      obtain ⟨k₀, v₀⟩ := e
      have hk : k₀ ≠ k := h (k₀, v₀) (List.mem_cons_self ..)
      rw [find, if_neg hk]
      exact ih fun e he => h e (List.mem_cons_of_mem _ he)

theorem forall_ne_of_find_eq_none {k : K} {l : List (K × V)} (h : find k l = none) :
    ∀ e ∈ l, e.1 ≠ k := by
  induction l with
  | nil => exact fun e he => (by cases he)
  | cons e l ih =>
    rw [find] at h
    split at h
    · cases h
    · next hne => exact List.forall_mem_cons.2 ⟨hne, ih h⟩

theorem mem_of_find {k : K} {v : V} {l : List (K × V)} (h : find k l = some v) :
    (k, v) ∈ l := by
  induction l with
  | nil => cases h
  | cons e l ih =>
      obtain ⟨k₀, v₀⟩ := e
      rw [find] at h
      split at h
      next hk =>
        cases h
        subst hk
        exact List.mem_cons_self ..
      next => exact List.mem_cons_of_mem _ (ih h)

/-- In a sorted list, being bound is being listed. -/
theorem find_eq_some_iff {k : K} {v : V} {l : List (K × V)} (hl : Sorted l) :
    find k l = some v ↔ (k, v) ∈ l := by
  refine ⟨mem_of_find, fun h => ?_⟩
  induction l with
  | nil => cases h
  | cons e l ih =>
      obtain ⟨k₀, v₀⟩ := e
      obtain ⟨hlt, hl⟩ := sorted_cons.mp hl
      rcases List.mem_cons.mp h with heq | hmem
      · cases heq
        rw [find, if_pos rfl]
      · have hne : k₀ ≠ k := ne_of_lt (hlt _ hmem)
        rw [find, if_neg hne]
        exact ih hl hmem

/-- Looking up a key by equality alone. -/
theorem lookup_eq_find (k : K) (l : List (K × V)) : l.lookup k = find k l := by
  induction l with
  | nil => rfl
  | cons e l ih =>
    obtain ⟨k', v⟩ := e
    rw [List.lookup_cons, find]
    by_cases hk : k' = k
    · rw [if_pos hk, hk, beq_self_eq_true]
    · rw [if_neg hk, beq_false_of_ne (Ne.symm hk), ih]

theorem find_append (k : K) (l₁ l₂ : List (K × V)) :
    find k (l₁ ++ l₂) = (find k l₁).or (find k l₂) := by
  induction l₁ with
  | nil => rfl
  | cons e l ih =>
      obtain ⟨k₀, v₀⟩ := e
      by_cases h : k₀ = k <;> simp [find, h, ih]

/-! ## Insertion and removal on one side of a concatenation -/

theorem insert_append_right {k : K} {v : V} {l₁ l₂ : List (K × V)}
    (h : ∀ e ∈ l₁, e.1 < k) : insert k v (l₁ ++ l₂) = l₁ ++ insert k v l₂ := by
  induction l₁ with
  | nil => rfl
  | cons e l ih =>
      obtain ⟨k₀, v₀⟩ := e
      have hk : k₀ < k := h (k₀, v₀) (List.mem_cons_self ..)
      rw [List.cons_append, insert, if_neg (not_lt_of_gt hk), if_neg (ne_of_gt hk),
        ih fun e he => h e (List.mem_cons_of_mem _ he), List.cons_append]

theorem insert_append_left {k : K} {v : V} {l₁ l₂ : List (K × V)}
    (h : ∀ e ∈ l₂, k < e.1) : insert k v (l₁ ++ l₂) = insert k v l₁ ++ l₂ := by
  induction l₁ with
  | nil =>
      cases l₂ with
      | nil => rfl
      | cons e l =>
          obtain ⟨k₀, v₀⟩ := e
          have hk : k < k₀ := h (k₀, v₀) (List.mem_cons_self ..)
          simp [insert, hk]
  | cons e l ih =>
      obtain ⟨k₀, v₀⟩ := e
      simp only [List.cons_append, insert, ih]
      split
      · rfl
      · split <;> rfl

theorem erase_of_forall_ne {k : K} {l : List (K × V)} (h : ∀ e ∈ l, e.1 ≠ k) :
    erase k l = l := by
  unfold erase
  rw [List.filter_eq_self]
  intro e he
  simpa using h e he

theorem erase_append (k : K) (l₁ l₂ : List (K × V)) :
    erase k (l₁ ++ l₂) = erase k l₁ ++ erase k l₂ := List.filter_append ..

theorem mem_insert {k : K} {v : V} {l : List (K × V)} {e : K × V} (h : e ∈ insert k v l) :
    e = (k, v) ∨ e ∈ l := by
  induction l with
  | nil => exact .inl (List.mem_singleton.mp h)
  | cons e' l ih =>
      obtain ⟨k₀, v₀⟩ := e'
      unfold insert at h
      split at h
      · rcases List.mem_cons.mp h with h | h
        · exact .inl h
        · exact .inr h
      · split at h
        · rcases List.mem_cons.mp h with h | h
          · exact .inl h
          · exact .inr (List.mem_cons_of_mem _ h)
        · rcases List.mem_cons.mp h with h | h
          · exact .inr (h ▸ List.mem_cons_self ..)
          · rcases ih h with h | h
            · exact .inl h
            · exact .inr (List.mem_cons_of_mem _ h)

section Middle

variable {k : K} {l₁ l₂ l₃ : List (K × V)} (h₁ : ∀ e ∈ l₁, e.1 < k) (h₃ : ∀ e ∈ l₃, k < e.1)

include h₁ h₃

theorem find_middle : find k (l₁ ++ l₂ ++ l₃) = find k l₂ := by
  rw [find_append, find_append, find_eq_none_of_forall_ne fun e he => ne_of_lt (h₁ e he),
    find_eq_none_of_forall_ne fun e he => ne_of_gt (h₃ e he), Option.none_or, Option.or_none]

theorem insert_middle (v : V) :
    insert k v (l₁ ++ l₂ ++ l₃) = l₁ ++ insert k v l₂ ++ l₃ := by
  rw [insert_append_left h₃, insert_append_right h₁]

theorem erase_middle : erase k (l₁ ++ l₂ ++ l₃) = l₁ ++ erase k l₂ ++ l₃ := by
  rw [erase_append, erase_append, erase_of_forall_ne fun e he => ne_of_lt (h₁ e he),
    erase_of_forall_ne fun e he => ne_of_gt (h₃ e he)]

end Middle

theorem insert_ne_nil (k : K) (v : V) (l : List (K × V)) : insert k v l ≠ [] := by
  cases l with
  | nil => simp [insert]
  | cons e l =>
      unfold insert
      split
      · simp
      · split <;> simp

theorem Sorted.insert {k : K} {v : V} {l : List (K × V)} (hl : Sorted l) :
    Sorted (OrdMap.insert k v l) := by
  induction l with
  | nil => exact List.pairwise_singleton ..
  | cons e l ih =>
      obtain ⟨k₀, v₀⟩ := e
      obtain ⟨hlt, hs⟩ := sorted_cons.mp hl
      unfold OrdMap.insert
      split
      next hk =>
        refine sorted_cons.mpr ⟨?_, hl⟩
        intro e' he'
        rcases List.mem_cons.mp he' with rfl | he'
        · exact hk
        · exact lt_trans hk (hlt e' he')
      next hk =>
        split
        next heq =>
          subst heq
          exact sorted_cons.mpr ⟨hlt, hs⟩
        next hne =>
          refine sorted_cons.mpr ⟨?_, ih hs⟩
          intro e' he'
          rcases mem_insert he' with rfl | he'
          · exact lt_of_le_of_ne (not_lt.mp hk) (Ne.symm hne)
          · exact hlt e' he'

/-- Of two bindings of one key the later counts. -/
theorem insert_insert (k : K) (v v' : V) (l : List (K × V)) :
    insert k v (insert k v' l) = insert k v l := by
  induction l with
  | nil => simp [insert]
  | cons e l ih =>
      obtain ⟨k₀, v₀⟩ := e
      by_cases hlt : k < k₀
      · simp [insert, hlt]
      · by_cases heq : k = k₀
        · subst heq
          simp [insert]
        · simp [insert, hlt, heq, ih]

/-- Binding a bound key anew changes nothing that the new value shares with the old. -/
theorem map_insert_of_find {W : Type} {g : K × V → W} {k : K} {v v' : V} {l : List (K × V)}
    (hl : Sorted l) (h : find k l = some v) (hg : g (k, v') = g (k, v)) :
    (insert k v' l).map g = l.map g := by
  induction l with
  | nil => cases h
  | cons e l ih =>
      obtain ⟨k₀, v₀⟩ := e
      obtain ⟨hlt, hl⟩ := sorted_cons.mp hl
      rw [find] at h
      split at h
      next heq =>
        cases h
        subst heq
        simp [insert, hg]
      next hne =>
        have hk : k₀ < k := hlt _ (mem_of_find h)
        rw [insert, if_neg (not_lt_of_gt hk), if_neg (ne_of_gt hk), List.map_cons, List.map_cons,
          ih hl h]

/-- Binding a key to what it is bound to changes nothing. -/
theorem insert_of_find {k : K} {v : V} {l : List (K × V)} (hl : Sorted l)
    (h : find k l = some v) : insert k v l = l := by
  have hid := map_insert_of_find (g := id) hl h rfl
  rwa [List.map_id, List.map_id] at hid

/-- Sorted lists with the same bindings are the same. -/
theorem Sorted.ext {l l' : List (K × V)} (hl : Sorted l) (hl' : Sorted l')
    (h : ∀ e, e ∈ l ↔ e ∈ l') : l = l' := by
  have hne : ∀ {a b : K × V}, a.1 < b.1 → a ≠ b := fun hlt heq => ne_of_lt hlt (heq ▸ rfl)
  have hperm : l.Perm l' := (List.perm_ext_iff_of_nodup (hl.imp hne) (hl'.imp hne)).2 h
  exact hperm.eq_of_pairwise (fun a b _ _ hab hba => absurd hab (not_lt_of_gt hba)) hl hl'

theorem Sorted.erase {k : K} {l : List (K × V)} (hl : Sorted l) : Sorted (OrdMap.erase k l) :=
  hl.sublist List.filter_sublist

/-! ## Splitting a sorted list at a key -/

/-- Where a predicate that holds on an initial segment stops holding. -/
def partitionPoint {α : Type} (p : α → Bool) (l : List α) : Nat := (l.takeWhile p).length

theorem take_partitionPoint {α : Type} (p : α → Bool) (l : List α) :
    l.take (partitionPoint p l) = l.takeWhile p := by
  unfold partitionPoint
  induction l with
  | nil => rfl
  | cons a l ih => by_cases h : p a <;> simp [h, ih]

theorem drop_partitionPoint {α : Type} (p : α → Bool) (l : List α) :
    l.drop (partitionPoint p l) = l.dropWhile p := by
  unfold partitionPoint
  induction l with
  | nil => rfl
  | cons a l ih => by_cases h : p a <;> simp [h, ih]

theorem partitionPoint_le {α : Type} (p : α → Bool) (l : List α) :
    partitionPoint p l ≤ l.length := (List.takeWhile_sublist p).length_le

theorem partitionPoint_map {α β : Type} (f : β → α) (p : α → Bool) (l : List β) :
    partitionPoint p (l.map f) = partitionPoint (p ∘ f) l := by
  unfold partitionPoint
  rw [List.takeWhile_map, List.length_map]

theorem lt_of_mem_take_partitionPoint {α : Type} {p : α → Bool} {l : List α} {a : α}
    (h : a ∈ l.take (partitionPoint p l)) : p a = true := by
  rw [take_partitionPoint] at h
  exact List.mem_takeWhile_imp h

theorem partitionPoint_cons {α : Type} (p : α → Bool) (a : α) (l : List α) :
    partitionPoint p (a :: l) = if p a then partitionPoint p l + 1 else 0 := by
  unfold partitionPoint
  by_cases h : p a <;> simp [h]

/-- Past its partition point, a predicate that is downward closed along the list fails. -/
theorem not_of_mem_drop_partitionPoint {α : Type} {R : α → α → Prop} {p : α → Bool} {l : List α}
    (hl : l.Pairwise R) (hp : ∀ a b, R a b → p b = true → p a = true) {a : α}
    (h : a ∈ l.drop (partitionPoint p l)) : p a = false := by
  induction l with
  | nil => simp at h
  | cons b l ih =>
      obtain ⟨hb, hl⟩ := List.pairwise_cons.mp hl
      rw [partitionPoint_cons] at h
      cases hpb : p b with
      | true =>
          simp only [hpb, if_true, List.drop_succ_cons] at h
          exact ih hl h
      | false =>
          rw [hpb, if_neg Bool.false_ne_true, List.drop_zero] at h
          rcases List.mem_cons.mp h with rfl | h
          · exact hpb
          · cases hpa : p a with
            | false => rfl
            | true => rw [← hpb, hp b a (hb a h) hpa]

end Edb.Lib.OrdMap
