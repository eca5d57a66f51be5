import Mathlib.Algebra.BigOperators.Group.List.Basic
import Edb.BTree.Balance

/-!
# Splitting always works

The search for a split index takes the most balanced of the splits that fit, and falls back to the
first when none does. It never comes to that: the longest prefix of the cells that fits a page
leaves no more than a page on the right (`exists_fits`), as long as no cell is larger than half a
page and the node is not larger than one insertion or one merge makes it (`Splittable`). So both
halves of every node that the tree splits fit a page, and put together around the promoted key they
are that node (`split_works`).
-/

namespace Edb.BTree

/-! ## The search finds a split that fits -/

namespace Node

section Search

variable {hdr : Nat} {internal : Bool} {cells : List Nat}

/-- The split the search has settled on, if any, fits. -/
theorem searchState_fits (hdr : Nat) (internal : Bool) (cells : List Nat) (j : Nat) :
    (searchState hdr internal cells j).bestSkew = 2 ^ 64 - 1 ∨
      Fits hdr internal cells (searchState hdr internal cells j).best := by
  induction j with
  | zero => exact .inl rfl
  | succ j ih =>
    rw [searchState_succ, splitStep_eq (searchState_inv hdr internal cells j)]
    split
    · next h => exact .inr h.1
    · exact ih

/-- If some split fits, the chosen one does. -/
theorem splitIndex_fits {m n : Nat} (hm : 1 ≤ m) (hmn : m ≤ n - 1)
    (hf : Fits hdr internal cells m) :
    Fits hdr internal cells (splitIndex hdr internal cells n) := by
  have hleast := (searchState_inv hdr internal cells (n - 1)).least m hm hmn hf
  have hskew : skew internal cells m ≤ cap := by
    obtain ⟨hleft, hright⟩ := hf
    rw [skew, absDiff]
    split <;> omega
  have hcap : cap = 4080 := rfl
  rcases searchState_fits hdr internal cells (n - 1) with h | h
  · omega
  · exact h

/-- The longest prefix of the cells that stays within a bound. -/
theorem exists_prefix {b : Nat} (h : b < cells.sum) :
    ∃ m, m < cells.length ∧ (cells.take m).sum ≤ b ∧ b < (cells.take m).sum + cells.getD m 0 := by
  induction cells generalizing b with
  | nil =>
    rw [List.sum_nil] at h
    omega
  | cons c cells ih =>
    by_cases hc : b < c
    · exact ⟨0, by simp, by simp, by simpa using hc⟩
    · rw [List.sum_cons] at h
      obtain ⟨m, hm, hle, hlt⟩ := ih (b := b - c) (by omega)
      refine ⟨m + 1, by simpa using hm, ?_, ?_⟩
      · rw [List.take_succ_cons, List.sum_cons]
        omega
      · rw [List.take_succ_cons, List.sum_cons, List.getD_cons_succ]
        omega

/-- Overfull cells that are not too many can be shared out over two pages. A leaf cell goes to
one of the sides, a separator to none. -/
theorem exists_fits (internal : Bool) (hb : ∀ c ∈ cells, 0 < c ∧ c ≤ maxCell)
    (hhdr : hdr ≤ hdrInternal) (hov : cap < hdr + cells.sum)
    (hle : hdr + cells.sum ≤ cap + maxCell + if internal then minFill else 0) :
    ∃ m, 1 ≤ m ∧ m ≤ cells.length - 1 ∧ Fits hdr internal cells m := by
  have hcap : cap = 4080 := rfl
  have hmin : minFill = 1020 := rfl
  have hmax : maxCell = 2034 := rfl
  have hh : hdrInternal = 12 := rfl
  obtain ⟨m, hm, hpre, hlt⟩ := exists_prefix (show cap - hdr < cells.sum by omega)
  have hcell : cells.getD m 0 ≤ maxCell := by
    rw [List.getD_eq_getElem?_getD, List.getElem?_eq_getElem hm, Option.getD_some]
    exact (hb _ (List.getElem_mem hm)).2
  refine ⟨m, ?_, by omega, by omega, ?_⟩
  · -- the first cell alone stays within the page
    rcases Nat.eq_zero_or_pos m with rfl | hpos
    · rw [List.take_zero, List.sum_nil] at hlt
      omega
    · exact hpos
  · rw [rightLen]
    cases internal with
    | false =>
      simp only [Bool.false_eq_true, if_false] at hle ⊢
      omega
    | true =>
      simp only [if_true] at hle ⊢
      omega

end Search

/-! ## What the tree splits -/

/-- One value for each key, or one more child than keys. -/
def Paired : Node → Prop
  | .leaf keys vals => keys.length = vals.length
  | .internal keys children => children.length = keys.length + 1

/-- A bound on the bytes that one insertion into a node that fits, or one merge of an underfull
node with a sibling that fits, can produce. A merge of internal nodes brings the separator down. -/
def produced (n : Node) : Nat := cap + maxCell + if n.isInternal then minFill else 0

/-- The nodes that insertion and rebalancing hand to `split`. -/
structure Splittable (n : Node) : Prop where
  paired : n.Paired
  overfull : cap < n.encodedLen
  sorted : n.keys.Pairwise (· < ·)
  cells : ∀ len ∈ n.cellLens, len ≤ maxCell
  size : n.encodedLen ≤ n.produced

section Produced

/-- Changing one value, or adding an entry, adds at most that entry's cell. -/
theorem sum_leafCells_set (ks vs : List Bytes) (i : Nat) (k v : Bytes) :
    (List.zipWith leafCell ks (vs.set i v)).sum ≤
      (List.zipWith leafCell ks vs).sum + leafCell k v := by
  induction ks generalizing vs i with
  | nil => simp
  | cons a ks ih =>
    cases vs with
    | nil => simp
    | cons b vs =>
      cases i with
      | zero =>
        simp only [List.set_cons_zero, List.zipWith_cons_cons, List.sum_cons, leafCell]
        omega
      | succ i =>
        simp only [List.set_cons_succ, List.zipWith_cons_cons, List.sum_cons]
        have := ih vs i
        omega

theorem sum_leafCells_insertIdx (ks vs : List Bytes) (i : Nat) (k v : Bytes) :
    (List.zipWith leafCell (ks.insertIdx i k) (vs.insertIdx i v)).sum ≤
      (List.zipWith leafCell ks vs).sum + leafCell k v := by
  induction i generalizing ks vs with
  | zero =>
    simp only [List.insertIdx_zero, List.zipWith_cons_cons, List.sum_cons]
    omega
  | succ i ih =>
    cases ks with
    | nil => simp
    | cons a ks =>
      cases vs with
      | nil => simp
      | cons b vs =>
        simp only [List.insertIdx_succ_cons, List.zipWith_cons_cons, List.sum_cons]
        have := ih ks vs
        omega

theorem sum_internalCells_insertIdx (ks : List Bytes) (i : Nat) (k : Bytes) :
    ((ks.insertIdx i k).map internalCell).sum ≤ (ks.map internalCell).sum + internalCell k := by
  induction i generalizing ks with
  | zero =>
    simp only [List.insertIdx_zero, List.map_cons, List.sum_cons]
    omega
  | succ i ih =>
    cases ks with
    | nil => simp
    | cons a ks =>
      simp only [List.insertIdx_succ_cons, List.map_cons, List.sum_cons]
      have := ih ks
      omega

/-- One insertion into a leaf that fits. -/
theorem leafInsert_size {ks vs : List Bytes} {key value : Bytes}
    (hfit : (leaf ks vs).encodedLen ≤ cap) (hentry : checkEntry key value = .ok ()) :
    (leafInsert ks vs key value).encodedLen ≤ (leafInsert ks vs key value).produced := by
  have hcell : leafCell key value ≤ maxCell := (checkEntry_eq_ok.1 hentry).1
  unfold leafInsert
  split
  next i _ =>
    have := sum_leafCells_set ks vs i key value
    simp only [encodedLen, headerLen, cellLens, produced, isInternal, Bool.false_eq_true,
      if_false] at hfit ⊢
    omega
  next i _ =>
    have := sum_leafCells_insertIdx ks vs i key value
    simp only [encodedLen, headerLen, cellLens, produced, isInternal, Bool.false_eq_true,
      if_false] at hfit ⊢
    omega

/-- A separator and a child added to an internal node that fits. -/
theorem installChild_size {ks : List Bytes} {cs : List Nat} {s : Bytes}
    (hfit : (internal ks cs).encodedLen ≤ cap) (hsep : internalCell s ≤ maxCell)
    (ci left right : Nat) : (installChild ks cs ci (.split left s right)).encodedLen ≤
      (installChild ks cs ci (.split left s right)).produced := by
  have := sum_internalCells_insertIdx ks ci s
  simp only [installChild, encodedLen, headerLen, cellLens, produced, isInternal, if_true] at hfit ⊢
  omega

/-- A merge of two nodes that fit, one of them underfull. -/
theorem merge_size {l r : Node} {s : Bytes} (hl : l.Paired) (hlcap : l.encodedLen ≤ cap)
    (hrcap : r.encodedLen ≤ cap) (hunder : l.isUnderfull = true ∨ r.isUnderfull = true)
    (hsep : internalCell s ≤ maxCell) : (merge l s r).encodedLen ≤ (merge l s r).produced := by
  have hcap : cap = 4080 := rfl
  have hmin : minFill = 1020 := rfl
  have hmax : maxCell = 2034 := rfl
  have hsmall : l.encodedLen < minFill ∨ r.encodedLen < minFill := by
    simpa only [isUnderfull, decide_eq_true_eq] using hunder
  cases l with
  | leaf lk lv =>
    cases r with
    | leaf rk rv =>
      have happend : List.zipWith leafCell (lk ++ rk) (lv ++ rv) =
          List.zipWith leafCell lk lv ++ List.zipWith leafCell rk rv := List.zipWith_append hl
      simp only [merge, encodedLen, headerLen, cellLens, produced, isInternal, happend,
        List.sum_append, Bool.false_eq_true, if_false] at hlcap hrcap hsmall ⊢
      omega
    | internal rk rc =>
      simp only [merge, produced, isInternal, Bool.false_eq_true, if_false]
      omega
  | internal lk lc =>
    cases r with
    | leaf rk rv =>
      simp only [merge, produced, isInternal, if_true]
      omega
    | internal rk rc =>
      simp only [merge, encodedLen, headerLen, cellLens, produced, isInternal, List.map_append,
        List.map_cons, List.map_nil, List.sum_append, List.sum_cons, List.sum_nil,
        if_true] at hlcap hrcap hsmall ⊢
      omega

end Produced

/-! ## The two halves -/

/-- Two halves and the promoted key make up a node: the key is the first of a leaf's right half,
and belongs to neither half of an internal node. -/
inductive Rejoins : Node → Node → Bytes → Node → Prop
  | leaf {lk lv rk rv : List Bytes} {s : Bytes} : lk.length = lv.length →
      (s :: rk).length = rv.length →
      Rejoins (.leaf (lk ++ s :: rk) (lv ++ rv)) (.leaf lk lv) s (.leaf (s :: rk) rv)
  | internal {lk rk : List Bytes} {lc rc : List Nat} {s : Bytes} : lc.length = lk.length + 1 →
      rc.length = rk.length + 1 →
      Rejoins (.internal (lk ++ s :: rk) (lc ++ rc)) (.internal lk lc) s (.internal rk rc)

/-- In order, the promoted key stands between the halves. -/
theorem Rejoins.separates {n l r : Node} {s : Bytes} (h : Rejoins n l s r)
    (hsorted : n.keys.Pairwise (· < ·)) : (∀ k ∈ l.keys, k < s) ∧ ∀ k ∈ r.keys, s ≤ k := by
  cases h with
  | leaf _ _ =>
    obtain ⟨-, hright, hcross⟩ := List.pairwise_append.1 hsorted
    refine ⟨fun k hk => hcross k hk s (List.mem_cons_self ..), fun k hk => ?_⟩
    rcases List.mem_cons.1 hk with rfl | hk
    · exact le_refl k
    · exact le_of_lt ((List.pairwise_cons.1 hright).1 k hk)
  | internal _ _ =>
    obtain ⟨-, hright, hcross⟩ := List.pairwise_append.1 hsorted
    exact ⟨fun k hk => hcross k hk s (List.mem_cons_self ..), fun k hk =>
      le_of_lt ((List.pairwise_cons.1 hright).1 k hk)⟩

/-- A node has one cell for each key. -/
theorem length_cellLens {n : Node} (h : n.Paired) : n.cellLens.length = n.keyCount := by
  cases n with
  | leaf ks vs =>
    change (List.zipWith leafCell ks vs).length = ks.length
    rw [List.length_zipWith, ← show ks.length = vs.length from h, Nat.min_self]
  | internal ks cs => exact List.length_map ..

theorem cellLens_pos (n : Node) : ∀ len ∈ n.cellLens, 0 < len := by
  intro len hlen
  cases n with
  | leaf ks vs =>
    rw [cellLens, ← List.map_uncurry_zip_eq_zipWith] at hlen
    obtain ⟨⟨k, v⟩, -, rfl⟩ := List.mem_map.1 hlen
    change 0 < 2 + k.length + 2 + v.length
    omega
  | internal ks cs =>
    obtain ⟨k, -, rfl⟩ := List.mem_map.1 hlen
    change 0 < 2 + k.length + 8
    omega

namespace Splittable

variable {n : Node}

theorem headerLen_le (n : Node) : n.headerLen ≤ hdrInternal := by
  cases n with
  | leaf ks vs => exact (by decide : hdrLeaf ≤ hdrInternal)
  | internal ks cs => exact Nat.le_refl _

theorem cells_le (h : n.Splittable) : ∀ len ∈ n.cellLens, 0 < len ∧ len ≤ maxCell :=
  fun len hlen => ⟨n.cellLens_pos len hlen, h.cells len hlen⟩

/-- The chosen index leaves two halves that fit. -/
theorem fits (h : n.Splittable) : Fits n.headerLen n.isInternal n.cellLens n.splitAt := by
  obtain ⟨m, hm, hmn, hfits⟩ :=
    exists_fits n.isInternal h.cells_le (headerLen_le n) h.overfull h.size
  rw [length_cellLens h.paired] at hmn
  exact splitIndex_fits hm hmn hfits

/-- The chosen index leaves a key on either side. -/
theorem bounds (h : n.Splittable) : 1 ≤ n.splitAt ∧
    n.splitAt + (if n.isInternal then 1 else 0) < n.keyCount := by
  have hthree := three_le_of_overfull h.cells_le h.overfull (headerLen_le n)
  rw [length_cellLens h.paired] at hthree
  have hbounds := splitIndex_bounds n.headerLen n.isInternal n.cellLens
    (show 2 ≤ n.keyCount by omega)
  refine ⟨hbounds.1, ?_⟩
  change splitIndex n.headerLen n.isInternal n.cellLens n.keyCount + _ < _
  cases n with
  | leaf ks vs =>
    change splitIndex _ _ _ _ + 0 < _
    omega
  | internal ks cs =>
    have hright := splitIndex_internal h.cells_le h.overfull
    rw [length_cellLens h.paired] at hright
    change splitIndex hdrInternal true _ _ + 1 < _
    omega

end Splittable

/-- **Splitting always works.** Both halves of a node that the tree hands to `split` fit a page and
hold a key, together they are the node, and the promoted key stands between them. -/
theorem split_works {n : Node} (h : n.Splittable) :
    n.split.1.encodedLen ≤ cap ∧ n.split.2.2.encodedLen ≤ cap ∧
      1 ≤ n.split.1.keyCount ∧ 1 ≤ n.split.2.2.keyCount ∧
      Rejoins n n.split.1 n.split.2.1 n.split.2.2 ∧
      (∀ k ∈ n.split.1.keys, k < n.split.2.1) ∧ ∀ k ∈ n.split.2.2.keys, n.split.2.1 ≤ k := by
  obtain ⟨hleft, hright⟩ := h.fits
  obtain ⟨hpos, hlt⟩ := h.bounds
  -- that the separator lies between the halves follows from their being the node
  suffices hparts : n.split.1.encodedLen ≤ cap ∧ n.split.2.2.encodedLen ≤ cap ∧
      1 ≤ n.split.1.keyCount ∧ 1 ≤ n.split.2.2.keyCount ∧
      Rejoins n n.split.1 n.split.2.1 n.split.2.2 by
    obtain ⟨hl, hr, hlk, hrk, hjoin⟩ := hparts
    exact ⟨hl, hr, hlk, hrk, hjoin, hjoin.separates h.sorted⟩
  have hpaired := h.paired
  cases n with
  | leaf ks vs =>
    change ks.length = vs.length at hpaired
    have hsplit : (leaf ks vs).split = (.leaf (ks.take (leaf ks vs).splitAt)
        (vs.take (leaf ks vs).splitAt), ks.getD (leaf ks vs).splitAt [],
        .leaf (ks.drop (leaf ks vs).splitAt) (vs.drop (leaf ks vs).splitAt)) := rfl
    rw [hsplit]
    -- of the split position only its bounds and the sizes of the halves are used
    generalize (leaf ks vs).splitAt = m at hleft hright hpos hlt ⊢
    change m + 0 < ks.length at hlt
    have hdrop : ks.drop m = ks.getD m [] :: ks.drop (m + 1) := by
      rw [List.drop_eq_getElem_cons (by omega), List.getD_eq_getElem?_getD,
        List.getElem?_eq_getElem (by omega), Option.getD_some]
    refine ⟨?_, ?_, ?_, ?_, ?_⟩
    · change hdrLeaf + (List.zipWith leafCell (ks.take m) (vs.take m)).sum ≤ cap
      rw [← List.take_zipWith]
      exact hleft
    · change hdrLeaf + (List.zipWith leafCell (ks.drop m) (vs.drop m)).sum ≤ cap
      have hsum := List.sum_take_add_sum_drop (leaf ks vs).cellLens m
      rw [rightLen, isInternal, if_neg Bool.false_ne_true] at hright
      change hdrLeaf + _ ≤ cap at hright
      rw [← List.drop_zipWith]
      change hdrLeaf + ((leaf ks vs).cellLens.drop m).sum ≤ cap
      omega
    · change 1 ≤ (ks.take m).length
      rw [List.length_take]
      omega
    · change 1 ≤ (ks.drop m).length
      rw [List.length_drop]
      omega
    · have hjoin : Rejoins (.leaf (ks.take m ++ ks.getD m [] :: ks.drop (m + 1))
          (vs.take m ++ vs.drop m)) (.leaf (ks.take m) (vs.take m)) (ks.getD m [])
          (.leaf (ks.getD m [] :: ks.drop (m + 1)) (vs.drop m)) :=
        .leaf (by rw [List.length_take, List.length_take, hpaired])
          (by rw [← hdrop, List.length_drop, List.length_drop, hpaired])
      rwa [← hdrop, List.take_append_drop, List.take_append_drop] at hjoin
  | internal ks cs =>
    change cs.length = ks.length + 1 at hpaired
    have hsplit : (internal ks cs).split = (.internal (ks.take (internal ks cs).splitAt)
        (cs.take ((internal ks cs).splitAt + 1)), ks.getD (internal ks cs).splitAt [],
        .internal (ks.drop ((internal ks cs).splitAt + 1))
          (cs.drop ((internal ks cs).splitAt + 1))) := rfl
    rw [hsplit]
    -- in an inner node the separator goes up, and is in neither half
    generalize (internal ks cs).splitAt = m at hleft hright hpos hlt ⊢
    change m + 1 < ks.length at hlt
    have hdrop : ks.drop m = ks.getD m [] :: ks.drop (m + 1) := by
      rw [List.drop_eq_getElem_cons (by omega), List.getD_eq_getElem?_getD,
        List.getElem?_eq_getElem (by omega), Option.getD_some]
    refine ⟨?_, ?_, ?_, ?_, ?_⟩
    · change hdrInternal + ((ks.take m).map internalCell).sum ≤ cap
      rw [List.map_take]
      exact hleft
    · change hdrInternal + ((ks.drop (m + 1)).map internalCell).sum ≤ cap
      have hsum := List.sum_take_add_sum_drop (internal ks cs).cellLens (m + 1)
      rw [sum_take_succ] at hsum
      rw [rightLen, isInternal, if_pos rfl] at hright
      change hdrInternal + _ ≤ cap at hright
      rw [List.map_drop]
      change hdrInternal + ((internal ks cs).cellLens.drop (m + 1)).sum ≤ cap
      omega
    · change 1 ≤ (ks.take m).length
      rw [List.length_take]
      omega
    · change 1 ≤ (ks.drop (m + 1)).length
      rw [List.length_drop]
      omega
    · have hjoin : Rejoins (.internal (ks.take m ++ ks.getD m [] :: ks.drop (m + 1))
          (cs.take (m + 1) ++ cs.drop (m + 1))) (.internal (ks.take m) (cs.take (m + 1)))
          (ks.getD m []) (.internal (ks.drop (m + 1)) (cs.drop (m + 1))) :=
        .internal (by rw [List.length_take, List.length_take]; omega)
          (by rw [List.length_drop, List.length_drop]; omega)
      rwa [← hdrop, List.take_append_drop, List.take_append_drop] at hjoin

/-- A leaf of three entries, each as large as an entry may be. -/
theorem split_works_large : 1 ≤ (leaf [[0], [1], [2]]
    (List.replicate 3 (List.replicate 2029 0))).split.2.2.keyCount :=
  (split_works (n := leaf [[0], [1], [2]] (List.replicate 3 (List.replicate 2029 0)))
    ⟨rfl, by decide +kernel, by decide, by decide +kernel, by decide +kernel⟩).2.2.2.1

end Node

end Edb.BTree
