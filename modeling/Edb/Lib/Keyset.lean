import Mathlib.Data.List.Sort

/-!
# Keyset pagination

A list in strictly ascending key order can be cut anywhere and resumed by key: the elements
whose key is greater than that of the `p`-th are exactly those after it (`filter_after`). The
order need only be one on the keys at hand (`OrderOn`), which is what lets a comparison that
is no order on all values serve a sort (`Sorter`) or a search for an extreme (`least_spec`).
-/

namespace Edb.Lib.Keyset

variable {α κ : Type}

/-- A comparison is a total order, up to `eq`, on the keys that satisfy `P`. -/
structure OrderOn (cmp : κ → κ → Ordering) (P : κ → Prop) : Prop where
  swap : ∀ {a b}, P a → P b → cmp b a = (cmp a b).swap
  le_trans : ∀ {a b c}, P a → P b → P c → cmp a b ≠ .gt → cmp b c ≠ .gt → cmp a c ≠ .gt

namespace OrderOn

variable {cmp : κ → κ → Ordering} {P : κ → Prop}

theorem total (h : OrderOn cmp P) {a b : κ} (ha : P a) (hb : P b) :
    cmp a b ≠ .gt ∨ cmp b a ≠ .gt := by
  rw [h.swap ha hb]
  cases cmp a b <;> simp

theorem eq_of_ne_gt {o : Ordering} (h : o ≠ .gt) (hswap : o.swap ≠ .gt) : o = .eq := by
  cases o with
  | lt => exact absurd rfl hswap
  | eq => rfl
  | gt => exact absurd rfl h

theorem antisymm (h : OrderOn cmp P) {a b : κ} (ha : P a) (hb : P b) (hab : cmp a b ≠ .gt)
    (hba : cmp b a ≠ .gt) : cmp a b = .eq :=
  eq_of_ne_gt hab (h.swap ha hb ▸ hba)

theorem mono {Q : κ → Prop} (h : OrderOn cmp P) (hQ : ∀ a, Q a → P a) : OrderOn cmp Q :=
  ⟨fun ha hb => h.swap (hQ _ ha) (hQ _ hb),
    fun ha hb hc => h.le_trans (hQ _ ha) (hQ _ hb) (hQ _ hc)⟩

/-- Only the values of the comparison on the keys at hand matter. -/
theorem congr {cmp' : κ → κ → Ordering} (h : OrderOn cmp P)
    (heq : ∀ a b, P a → P b → cmp' a b = cmp a b) : OrderOn cmp' P where
  swap ha hb := by rw [heq _ _ ha hb, heq _ _ hb ha, h.swap ha hb]
  le_trans ha hb hc := by
    rw [heq _ _ ha hb, heq _ _ hb hc, heq _ _ ha hc]
    exact h.le_trans ha hb hc

/-- The order of the keys' images. -/
theorem comap {β : Type} (h : OrderOn cmp P) (f : β → κ) :
    OrderOn (fun a b => cmp (f a) (f b)) (fun a => P (f a)) :=
  ⟨fun ha hb => h.swap ha hb, fun ha hb hc => h.le_trans ha hb hc⟩

/-- The opposite order. -/
theorem reverse (h : OrderOn cmp P) : OrderOn (fun a b => (cmp a b).swap) P where
  swap ha hb := by rw [h.swap ha hb]
  le_trans {a b c} ha hb hc hab hbc := by
    rw [← h.swap ha hb] at hab
    rw [← h.swap hb hc] at hbc
    rw [← h.swap ha hc]
    exact h.le_trans hc hb ha hbc hab

theorem eq_trans (h : OrderOn cmp P) {a b c : κ} (ha : P a) (hb : P b) (hc : P c)
    (hab : cmp a b = .eq) (hbc : cmp b c = .eq) : cmp a c = .eq := by
  have hba : cmp b a = .eq := by rw [h.swap ha hb, hab]; rfl
  have hcb : cmp c b = .eq := by rw [h.swap hb hc, hbc]; rfl
  have hac := h.le_trans ha hb hc (by simp [hab]) (by simp [hbc])
  have hca := h.le_trans hc hb ha (by simp [hcb]) (by simp [hba])
  rw [h.swap ha hc] at hca
  cases hcmp : cmp a c with
  | lt =>
    rw [hcmp] at hca
    exact absurd rfl hca
  | eq => rfl
  | gt => exact absurd hcmp hac

theorem lt_of_lt_of_le (h : OrderOn cmp P) {a b c : κ} (ha : P a) (hb : P b) (hc : P c)
    (hab : cmp a b = .lt) (hbc : cmp b c ≠ .gt) : cmp a c = .lt := by
  have hac := h.le_trans ha hb hc (by simp [hab]) hbc
  cases hcmp : cmp a c with
  | lt => rfl
  | eq =>
    -- then `b ≤ c ≤ a`, against `a < b`
    have hca : cmp c a ≠ .gt := by
      rw [h.swap ha hc, hcmp]
      simp
    have hba := h.le_trans hb hc ha hbc hca
    rw [h.swap ha hb, hab] at hba
    exact absurd rfl hba
  | gt => exact absurd hcmp hac

theorem lt_of_le_of_lt (h : OrderOn cmp P) {a b c : κ} (ha : P a) (hb : P b) (hc : P c)
    (hab : cmp a b ≠ .gt) (hbc : cmp b c = .lt) : cmp a c = .lt := by
  have hac := h.le_trans ha hb hc hab (by simp [hbc])
  cases hcmp : cmp a c with
  | lt => rfl
  | eq =>
    have hca : cmp c a ≠ .gt := by
      rw [h.swap ha hc, hcmp]
      simp
    have hcb := h.le_trans hc ha hb hca hab
    rw [h.swap hb hc, hbc] at hcb
    exact absurd rfl hcb
  | gt => exact absurd hcmp hac

theorem then_ne_gt {x y : Ordering} : x.then y ≠ .gt ↔ x = .lt ∨ (x = .eq ∧ y ≠ .gt) := by
  cases x <;> simp [Ordering.then]

/-- Compare by one part first and by another between equals. -/
theorem lex {cmp' : κ → κ → Ordering} (h : OrderOn cmp P) (h' : OrderOn cmp' P) :
    OrderOn (fun a b => (cmp a b).then (cmp' a b)) P where
  swap ha hb := by rw [h.swap ha hb, h'.swap ha hb, Ordering.swap_then]
  le_trans {a b c} ha hb hc hab hbc := by
    rw [then_ne_gt] at hab hbc ⊢
    rcases hab with hab | ⟨hab, hab'⟩
    · left
      apply h.lt_of_lt_of_le ha hb hc hab
      rcases hbc with hbc | ⟨hbc, _⟩ <;> simp [hbc]
    · rcases hbc with hbc | ⟨hbc, hbc'⟩
      · exact .inl (h.lt_of_le_of_lt ha hb hc (by simp [hab]) hbc)
      · exact .inr ⟨h.eq_trans ha hb hc hab hbc, h'.le_trans ha hb hc hab' hbc'⟩

end OrderOn

/-! ## Sorting -/

/-- Sorting orders a list whose elements the relation orders. -/
theorem pairwise_insertionSort {r : α → α → Prop} [DecidableRel r] {Q : α → Prop}
    (htotal : ∀ a b, Q a → Q b → r a b ∨ r b a)
    (htrans : ∀ a b c, Q a → Q b → Q c → r a b → r b c → r a c) {l : List α}
    (hl : ∀ a ∈ l, Q a) : (l.insertionSort r).Pairwise r := by
  -- the relation is total and transitive on the subtype, where Mathlib's sort lemma applies
  let s : {a // Q a} → {a // Q a} → Prop := fun a b => r a.1 b.1
  have : Std.Total s := ⟨fun a b => htotal a.1 b.1 a.2 b.2⟩
  have : IsTrans {a // Q a} s := ⟨fun a b c => htrans a.1 b.1 c.1 a.2 b.2 c.2⟩
  have hsorted := List.pairwise_insertionSort s (l.attachWith Q hl)
  have hmap := List.map_insertionSort s r Subtype.val (l.attachWith Q hl)
    (fun a _ b _ => Iff.rfl)
  rw [List.attachWith_map_subtype_val] at hmap
  rw [← hmap, List.pairwise_map]
  exact hsorted

/-- A stable sort as a standard library documents it: it rearranges a list, into the stable order
of a comparison that is a total order on the elements. Under another comparison the order is its
own, and the call may not return. -/
structure Sorter (α : Type) where
  run : (α → α → Ordering) → List α → Option (List α)
  perm : ∀ {cmp : α → α → Ordering} {l out : List α}, run cmp l = some out → out.Perm l
  sorts : ∀ {cmp : α → α → Ordering} {l : List α}, OrderOn cmp (· ∈ l) →
    run cmp l = some (l.insertionSort (fun a b => cmp a b ≠ .gt))

/-- The sorter that inserts the elements one by one, whatever the comparison is. -/
def Sorter.insertion : Sorter α where
  run cmp l := some (l.insertionSort (fun a b => cmp a b ≠ .gt))
  perm h := by
    cases h
    exact List.perm_insertionSort _ _
  sorts _ := rfl

/-- Under a total order the result ascends. -/
theorem Sorter.ascends (sorter : Sorter α) {cmp : α → α → Ordering} {l out : List α}
    (horder : OrderOn cmp (· ∈ l)) (h : sorter.run cmp l = some out) :
    out.Pairwise (fun a b => cmp a b ≠ .gt) := by
  cases (sorter.sorts horder).symm.trans h
  exact pairwise_insertionSort (Q := (· ∈ l)) (fun a b ha hb => horder.total ha hb)
    (fun a b c ha hb hc => horder.le_trans ha hb hc) (fun a ha => ha)

/-! ## Extremes -/

/-- A fold that at each step keeps one of two elements, one that is at least as extreme as both,
keeps an extreme one. -/
theorem foldl_extreme {R : α → α → Prop} {P : α → Prop} {f : α → α → α}
    (hrefl : ∀ a, P a → R a a) (htrans : ∀ a b c, P a → P b → P c → R a b → R b c → R a c)
    (hf : ∀ a b, P a → P b → (f a b = a ∨ f a b = b) ∧ R (f a b) a ∧ R (f a b) b)
    {a : α} {l : List α} (hP : ∀ b ∈ a :: l, P b) :
    l.foldl f a ∈ a :: l ∧ ∀ b ∈ a :: l, R (l.foldl f a) b := by
  induction l generalizing a with
  | nil =>
    refine ⟨List.mem_cons_self, fun b hb => ?_⟩
    rw [List.mem_singleton.1 hb]
    exact hrefl a (hP a List.mem_cons_self)
  | cons b l ih =>
    have ha : P a := hP a List.mem_cons_self
    have hb : P b := hP b (List.mem_cons_of_mem _ List.mem_cons_self)
    obtain ⟨hmem, hfa, hfb⟩ := hf a b ha hb
    have hPf : P (f a b) := by
      rcases hmem with heq | heq <;> rw [heq] <;> assumption
    have hrest : ∀ c ∈ f a b :: l, P c := by
      intro c hc
      rcases List.mem_cons.1 hc with rfl | hc
      · exact hPf
      · exact hP c (List.mem_cons_of_mem _ (List.mem_cons_of_mem _ hc))
    obtain ⟨hm, hle⟩ := ih hrest
    have hPm := hrest _ hm
    -- the result is below the first step, which is below both of its arguments
    have hmf := hle (f a b) List.mem_cons_self
    refine ⟨?_, ?_⟩
    · rcases List.mem_cons.1 hm with heq | hm
      · rw [List.foldl_cons, heq]
        rcases hmem with heq | heq <;> rw [heq] <;> simp
      · exact List.mem_cons_of_mem _ (List.mem_cons_of_mem _ hm)
    · intro c hc
      rcases List.mem_cons.1 hc with rfl | hc
      · exact htrans _ _ _ hPm hPf ha hmf hfa
      · rcases List.mem_cons.1 hc with rfl | hc
        · exact htrans _ _ _ hPm hPf hb hmf hfb
        · exact hle c (List.mem_cons_of_mem _ hc)

/-- The first of the least elements. -/
def least (cmp : α → α → Ordering) : List α → Option α
  | [] => none
  | a :: l => some (l.foldl (fun x y => if cmp x y = .gt then y else x) a)

/-- The last of the greatest elements. -/
def greatest (cmp : α → α → Ordering) : List α → Option α
  | [] => none
  | a :: l => some (l.foldl (fun x y => if cmp x y = .gt then x else y) a)

section Extremes

variable {cmp : α → α → Ordering} {P : α → Prop} {l l' : List α}

theorem OrderOn.refl (h : OrderOn cmp P) {a : α} (ha : P a) : cmp a a = .eq := by
  have hself : cmp a a ≠ .gt := by
    rcases h.total ha ha with hle | hle <;> exact hle
  exact h.antisymm ha ha hself hself

theorem least_spec (h : OrderOn cmp P) (hP : ∀ a ∈ l, P a) {m : α} (hm : least cmp l = some m) :
    m ∈ l ∧ ∀ a ∈ l, cmp m a ≠ .gt := by
  cases l with
  | nil => cases hm
  | cons a l =>
    cases hm
    refine foldl_extreme (P := P) (R := fun a b => cmp a b ≠ .gt) ?_
      (fun a b c ha hb hc => h.le_trans ha hb hc) ?_ hP
    · intro a ha
      rw [h.refl ha]
      decide
    · intro a b ha hb
      by_cases hgt : cmp a b = .gt
      · refine ⟨.inr (if_pos hgt), ?_, ?_⟩
        · rw [if_pos hgt, h.swap ha hb, hgt]
          decide
        · rw [if_pos hgt, h.refl hb]
          decide
      · refine ⟨.inl (if_neg hgt), ?_, ?_⟩
        · rw [if_neg hgt, h.refl ha]
          decide
        · rwa [if_neg hgt]

theorem greatest_spec (h : OrderOn cmp P) (hP : ∀ a ∈ l, P a) {m : α}
    (hm : greatest cmp l = some m) : m ∈ l ∧ ∀ a ∈ l, cmp a m ≠ .gt := by
  cases l with
  | nil => cases hm
  | cons a l =>
    cases hm
    refine foldl_extreme (P := P) (R := fun a b => cmp b a ≠ .gt) ?_
      (fun a b c ha hb hc hab hbc => h.le_trans hc hb ha hbc hab) ?_ hP
    · intro a ha
      rw [h.refl ha]
      decide
    · intro a b ha hb
      by_cases hgt : cmp a b = .gt
      · refine ⟨.inl (if_pos hgt), ?_, ?_⟩
        · rw [if_pos hgt, h.refl ha]
          decide
        · rw [if_pos hgt, h.swap ha hb, hgt]
          decide
      · refine ⟨.inr (if_neg hgt), ?_, ?_⟩
        · rwa [if_neg hgt]
        · rw [if_neg hgt, h.refl hb]
          decide

/-- A least element that comes first is the one that is found. -/
theorem least_cons {a : α} (h : ∀ b ∈ l, cmp a b ≠ .gt) : least cmp (a :: l) = some a := by
  refine congrArg some ?_
  induction l with
  | nil => rfl
  | cons b l ih =>
    rw [List.foldl_cons, if_neg (h b List.mem_cons_self)]
    exact ih (fun c hc => h c (List.mem_cons_of_mem _ hc))

/-- A greatest element that comes last is the one that is found. -/
theorem greatest_concat {a : α} (h : ∀ b ∈ l, cmp b a ≠ .gt) (hP : ∀ b ∈ l, P b)
    (horder : OrderOn cmp P) : greatest cmp (l ++ [a]) = some a := by
  cases l with
  | nil => rfl
  | cons b l =>
    obtain ⟨hmem, -⟩ := greatest_spec horder hP (rfl : greatest cmp (b :: l) = some _)
    show some ((l ++ [a]).foldl _ b) = some a
    rw [List.foldl_append, List.foldl_cons, List.foldl_nil, if_neg (h _ hmem)]

end Extremes

/-! ## Resuming by key -/

section Resume

variable {cmp : κ → κ → Ordering} {P : κ → Prop} {key : α → κ}

/-- In a list that ascends by key, the elements whose key is greater than the last of a
prefix are those after the prefix. Besides the ascent only the symmetry of an order is needed. -/
theorem filter_after (hswap : ∀ {a b}, P a → P b → cmp b a = (cmp a b).swap)
    {before after : List α} {last : α}
    (hP : ∀ a ∈ before ++ last :: after, P (key a))
    (hlt : (before ++ last :: after).Pairwise (fun a b => cmp (key a) (key b) = .lt)) :
    (before ++ last :: after).filter (fun a => cmp (key a) (key last) = .gt) = after := by
  rw [List.pairwise_append, List.pairwise_cons] at hlt
  obtain ⟨_, ⟨hafter, _⟩, hbefore⟩ := hlt
  have hlast : P (key last) := hP last (by simp)
  have hself : cmp (key last) (key last) ≠ .gt := by
    intro hgt
    have hflip := hswap hlast hlast
    rw [hgt] at hflip
    cases hflip
  have hnone : before.filter (fun a => decide (cmp (key a) (key last) = .gt)) = [] := by
    rw [List.filter_eq_nil_iff]
    intro a ha
    simp [hbefore a ha last (by simp)]
  have hall : after.filter (fun a => decide (cmp (key a) (key last) = .gt)) = after := by
    rw [List.filter_eq_self]
    intro a ha
    rw [hswap hlast (hP a (by simp [ha])), hafter a ha]
    rfl
  rw [List.filter_append, List.filter_cons_of_neg (by simpa using hself), hnone, hall]
  rfl

/-- A list that ascends weakly and has no two equal keys ascends strictly. -/
theorem pairwise_lt {l : List α} (hle : l.Pairwise (fun a b => cmp (key a) (key b) ≠ .gt))
    (hne : l.Pairwise (fun a b => cmp (key a) (key b) ≠ .eq)) :
    l.Pairwise (fun a b => cmp (key a) (key b) = .lt) := by
  apply (hle.and hne).imp
  intro a b hab
  cases hcmp : cmp (key a) (key b) with
  | lt => rfl
  | eq => exact absurd hcmp hab.2
  | gt => exact absurd hcmp hab.1

end Resume

end Edb.Lib.Keyset
