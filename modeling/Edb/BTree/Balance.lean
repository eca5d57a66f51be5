import Edb.BTree.Shape

/-!
# Splitting and merging

The byte arithmetic behind `split`, and what splitting an overfull node and merging two siblings
do to the ordering invariant. The search for a split index is a loop over the candidate indices;
`SearchInv` is its invariant.
-/

namespace Edb.BTree

open Edb.Lib

namespace Node

variable {hdr : Nat} {internal : Bool} {cells : List Nat}

/-- Both halves of the split after `m` cells fit a page. -/
def Fits (hdr : Nat) (internal : Bool) (cells : List Nat) (m : Nat) : Prop :=
  hdr + (cells.take m).sum ≤ cap ∧
    hdr + rightLen internal cells (cells.take m).sum m ≤ cap

/-- How unbalanced the split after `m` cells is. -/
def skew (internal : Bool) (cells : List Nat) (m : Nat) : Nat :=
  absDiff (cells.take m).sum (rightLen internal cells (cells.take m).sum m)

/-- After weighing the splits `1 .. j`: the index is one of them (or the initial one), and no
split that fits beats it. -/
structure SearchInv (hdr : Nat) (internal : Bool) (cells : List Nat) (j : Nat) (s : SplitState) :
    Prop where
  left : s.left = (cells.take j).sum
  pos : 1 ≤ s.best
  le : s.best ≤ max 1 j
  least : ∀ m, 1 ≤ m → m ≤ j → Fits hdr internal cells m → s.bestSkew ≤ skew internal cells m

theorem sum_take_succ (cells : List Nat) (j : Nat) :
    (cells.take (j + 1)).sum = (cells.take j).sum + cells.getD j 0 := by
  rw [List.take_add_one, List.sum_append]
  cases hj : cells[j]? <;> simp [List.getD, hj]

/-- One step of the search takes the next split if it fits and is less skewed than the best. -/
theorem splitStep_eq {j : Nat} {s : SplitState} (hs : SearchInv hdr internal cells j s) :
    splitStep hdr internal cells s (j + 1) =
      if (hdr + (cells.take (j + 1)).sum ≤ cap ∧
          hdr + rightLen internal cells (cells.take (j + 1)).sum (j + 1) ≤ cap) ∧
          skew internal cells (j + 1) < s.bestSkew then
        { best := j + 1, bestSkew := skew internal cells (j + 1),
          left := (cells.take (j + 1)).sum }
      else { s with left := (cells.take (j + 1)).sum } := by
  unfold splitStep skew
  rw [hs.left, Nat.add_sub_cancel, ← sum_take_succ]
  simp only
  split
  next hfit => simp only [hfit, true_and]
  next hfit => rw [if_neg fun hc => hfit hc.1]

/-- One step of the search keeps its invariant, over one split more. -/
theorem splitStep_inv {j : Nat} {s : SplitState} (hs : SearchInv hdr internal cells j s) :
    SearchInv hdr internal cells (j + 1) (splitStep hdr internal cells s (j + 1)) := by
  rw [splitStep_eq hs]
  split
  next hc =>
    refine ⟨rfl, by simp, by simp, fun m hm hmj hf => ?_⟩
    rcases Nat.lt_or_ge m (j + 1) with hlt | hge
    · exact le_trans (le_of_lt hc.2) (hs.least m hm (by omega) hf)
    · rw [show m = j + 1 by omega]
  next hc =>
    refine ⟨rfl, hs.pos, ?_, fun m hm hmj hf => ?_⟩
    · have := hs.le
      change s.best ≤ _
      omega
    · rcases Nat.lt_or_ge m (j + 1) with hlt | hge
      · exact hs.least m hm (by omega) hf
      · have hmj : m = j + 1 := by omega
        subst hmj
        exact not_lt.mp fun hlt => hc ⟨hf, hlt⟩

/-- The search state after the candidates `1 .. j`. -/
def searchState (hdr : Nat) (internal : Bool) (cells : List Nat) (j : Nat) : SplitState :=
  (List.range' 1 j).foldl (splitStep hdr internal cells)
    { best := 1, bestSkew := 2 ^ 64 - 1, left := 0 }

theorem searchState_succ (j : Nat) : searchState hdr internal cells (j + 1) =
    splitStep hdr internal cells (searchState hdr internal cells j) (j + 1) := by
  unfold searchState
  rw [List.range'_concat, List.foldl_append, Nat.one_mul, Nat.add_comm 1 j]
  rfl

theorem searchState_inv (hdr : Nat) (internal : Bool) (cells : List Nat) (j : Nat) :
    SearchInv hdr internal cells j (searchState hdr internal cells j) := by
  induction j with
  | zero => exact ⟨rfl, Nat.le_refl 1, by simp [searchState], fun m hm hm' => by omega⟩
  | succ j ih =>
      rw [searchState_succ]
      exact splitStep_inv ih

/-- The split index leaves a cell on both sides. -/
theorem splitIndex_bounds (hdr : Nat) (internal : Bool) (cells : List Nat) {n : Nat} (hn : 2 ≤ n) :
    1 ≤ splitIndex hdr internal cells n ∧ splitIndex hdr internal cells n ≤ n - 1 := by
  have h := searchState_inv hdr internal cells (n - 1)
  have hle := h.le
  exact ⟨h.pos, by change (searchState hdr internal cells (n - 1)).best ≤ n - 1; omega⟩

/-- In a list of at least three cells, the last two taken apart. -/
theorem exists_last_two {cells : List Nat} (h : 3 ≤ cells.length) :
    ∃ l a b, cells = l ++ [a, b] ∧ l ≠ [] := by
  rcases List.eq_nil_or_concat cells with rfl | ⟨l, b, rfl⟩
  · simp at h
  · rcases List.eq_nil_or_concat l with rfl | ⟨l, a, rfl⟩
    · simp at h
    · refine ⟨l, a, b, by simp, ?_⟩
      rintro rfl
      simp at h

theorem sum_le_of_forall_le {cells : List Nat} {b : Nat} (h : ∀ c ∈ cells, c ≤ b) :
    cells.sum ≤ cells.length * b := by
  induction cells with
  | nil => simp
  | cons c cells ih =>
      have hc := h c (List.mem_cons_self ..)
      have := ih fun c' hc' => h c' (List.mem_cons_of_mem _ hc')
      rw [List.sum_cons, List.length_cons, Nat.succ_mul]
      omega

/-- The cells of an overfull node are at least three. -/
theorem three_le_of_overfull (hb : ∀ c ∈ cells, 0 < c ∧ c ≤ maxCell)
    (hov : cap < hdr + cells.sum) (hhdr : hdr ≤ hdrInternal) : 3 ≤ cells.length := by
  have hsum := sum_le_of_forall_le fun c hc => (hb c hc).2
  have hcap : cap = 4080 := rfl
  have hmax : maxCell = 2034 := rfl
  have hh : hdrInternal = 12 := rfl
  by_contra hlt
  have hle : cells.length * maxCell ≤ 2 * maxCell := Nat.mul_le_mul_right _ (by omega)
  omega

/-- An overfull internal node is never split so that its right half has no separator: the split
one cell earlier is more balanced. -/
theorem splitIndex_internal (hb : ∀ c ∈ cells, 0 < c ∧ c ≤ maxCell)
    (hov : cap < hdrInternal + cells.sum) :
    splitIndex hdrInternal true cells cells.length ≤ cells.length - 2 := by
  have hthree := three_le_of_overfull hb hov (Nat.le_refl _)
  obtain ⟨l, a, b, rfl, hl⟩ := exists_last_two hthree
  have hcap : cap = 4080 := rfl
  have hmax : maxCell = 2034 := rfl
  have hh : hdrInternal = 12 := rfl
  have ha := hb a (by simp)
  have hbb := hb b (by simp)
  have hlen : (l ++ [a, b]).length = l.length + 2 := by simp
  have hlpos : 1 ≤ l.length := List.length_pos_iff.mpr hl
  have hsum : (l ++ [a, b]).sum = l.sum + (a + b) := by simp
  change (searchState hdrInternal true (l ++ [a, b]) ((l ++ [a, b]).length - 1)).best ≤ _
  rw [hlen, show l.length + 2 - 1 = l.length + 1 by omega, searchState_succ]
  have hinv := searchState_inv hdrInternal true (l ++ [a, b]) l.length
  have hle := hinv.le
  have hleast := hinv.least l.length hlpos (Nat.le_refl _)
  generalize searchState hdrInternal true (l ++ [a, b]) l.length = s at hinv hle hleast ⊢
  -- the last two candidates, with the bytes they put on either side
  have htake : ((l ++ [a, b]).take l.length).sum = l.sum := by simp
  have htake' : ((l ++ [a, b]).take (l.length + 1)).sum = l.sum + a := by
    rw [List.take_length_add_append]
    simp
  have hright : rightLen true (l ++ [a, b]) l.sum l.length = b := by
    simp [rightLen, hsum]
  have hright' : rightLen true (l ++ [a, b]) (l.sum + a) (l.length + 1) = 0 := by
    simp [rightLen, hsum]
    omega
  rw [splitStep_eq hinv]
  split
  next hc =>
    exfalso
    unfold skew at hc hleast
    rw [htake', hright'] at hc
    unfold Fits at hleast
    rw [htake, hright] at hleast
    have := hleast (by omega)
    unfold absDiff at this hc
    split at this <;> split at hc <;> omega
  next hc =>
    change s.best ≤ _
    omega

end Node

namespace Tree

variable {ι : Type} {h : Nat} {lo hi : Option Bytes}

/-! ## Splitting a subtree -/

/-- The number of cells of the root that stay on the left when it is split. -/
def splitAt (t : Tree ι h) : Nat :=
  Node.splitIndex t.headerLen (decide (h ≠ 0)) t.cells t.cells.length

/-- Split the root, as `Node.split` splits its node; both halves keep the root's label. -/
def split : {h : Nat} → Tree ι h → Tree ι h × Bytes × Tree ι h
  | 0, t =>
      let m := splitAt (h := 0) t
      (leaf (LeafNode.label t) ((LeafNode.entries t).take m),
        ((LeafNode.entries t).map Prod.fst).getD m [],
        leaf (LeafNode.label t) ((LeafNode.entries t).drop m))
  | h + 1, t =>
      let m := splitAt (h := h + 1) t
      (node (InnerNode.label t) ((InnerNode.keys t).take m) ((InnerNode.children t).take (m + 1)),
        (InnerNode.keys t).getD m [],
        node (InnerNode.label t) ((InnerNode.keys t).drop (m + 1))
          ((InnerNode.children t).drop (m + 1)))

theorem split_leaf (i : ι) (es : List Entry) : (leaf i es).split =
    (leaf i (es.take (leaf i es).splitAt), (es.map Prod.fst).getD (leaf i es).splitAt [],
      leaf i (es.drop (leaf i es).splitAt)) := rfl

theorem split_node (i : ι) (ks : List Bytes) (cs : List (Tree ι h)) : (node i ks cs).split =
    (node i (ks.take (node i ks cs).splitAt) (cs.take ((node i ks cs).splitAt + 1)),
      ks.getD (node i ks cs).splitAt [],
      node i (ks.drop ((node i ks cs).splitAt + 1)) (cs.drop ((node i ks cs).splitAt + 1))) := rfl

/-- What a split must establish: an ordered subtree with a key on either side of the separator. -/
structure Halves (lo hi : Option Bytes) (es : List Entry) (l : Tree ι h) (s : Bytes)
    (r : Tree ι h) : Prop where
  sep : SepIn lo hi s
  sepLen : Node.internalCell s ≤ maxCell
  left : l.Pre lo (some s)
  leftFull : l.Full
  right : r.Pre (some s) hi
  rightFull : r.Full
  entries : l.entries ++ r.entries = es

/-- A leaf cut anywhere between two of its entries is cut in halves. -/
theorem split_leaf_spec {i : ι} {es : List Entry} (ht : (leaf i es).Pre lo hi) {m : Nat}
    (hm : 1 ≤ m) (hmn : m < es.length) :
    Halves lo hi es (leaf i (es.take m)) ((es.map Prod.fst).getD m []) (leaf i (es.drop m)) := by
  obtain ⟨hsort, hes⟩ := pre_leaf.mp ht
  obtain ⟨e, hm'⟩ : ∃ e, es[m]? = some e := ⟨es[m], List.getElem?_eq_getElem hmn⟩
  have hsplit : es = es.take m ++ es.drop m := (List.take_append_drop m es).symm
  have hdrop : es.drop m = e :: es.drop (m + 1) := by
    rw [List.drop_eq_getElem_cons hmn]
    rw [List.getElem?_eq_getElem hmn, Option.some_inj] at hm'
    rw [hm']
  -- the separator is the first key of the right half
  have hsep : (es.map Prod.fst).getD m [] = e.1 := by simp [hm']
  have hmem : e ∈ es := List.mem_of_getElem? hm'
  -- the left half is not empty: its first key is above the lower bound, and so is the separator
  obtain ⟨e₀, l, htake⟩ : ∃ e₀ l, es.take m = e₀ :: l := by
    cases hc : es.take m with
    | nil =>
        have := congrArg List.length hc
        rw [List.length_take, List.length_nil] at this
        omega
    | cons e₀ l => exact ⟨e₀, l, rfl⟩
  have hs := hsort
  rw [hsplit] at hs
  obtain ⟨hs₁, hs₂, hlt⟩ := OrdMap.sorted_append.mp hs
  have hbelow : ∀ x ∈ es.take m, x.1 < e.1 := by
    intro x hx
    exact hlt x hx e (by rw [hdrop]; exact List.mem_cons_self ..)
  have habove : ∀ x ∈ es.drop m, e.1 ≤ x.1 := by
    intro x hx
    rw [hdrop] at hx hs₂
    rcases List.mem_cons.mp hx with rfl | hx
    · exact le_refl _
    · exact le_of_lt ((OrdMap.sorted_cons.mp hs₂).1 x hx)
  rw [hsep]
  refine ⟨⟨fun b hb => ?_, (hes e hmem).1.2⟩, (hes e hmem).2.2, ?_, ?_, ?_, ?_, ?_⟩
  · have h₀ : e₀ ∈ es.take m := by rw [htake]; exact List.mem_cons_self ..
    exact lt_of_le_of_lt ((hes e₀ (List.mem_of_mem_take h₀)).1.1 b hb) (hbelow e₀ h₀)
  · refine pre_leaf.mpr ⟨hs₁, fun x hx => ⟨⟨(hes x (List.mem_of_mem_take hx)).1.1, ?_⟩,
      (hes x (List.mem_of_mem_take hx)).2⟩⟩
    rintro u ⟨⟩
    exact hbelow x hx
  · rw [full_leaf, htake]
    simp
  · refine pre_leaf.mpr ⟨hs₂, fun x hx => ⟨⟨?_, (hes x (List.mem_of_mem_drop hx)).1.2⟩,
      (hes x (List.mem_of_mem_drop hx)).2⟩⟩
    rintro u ⟨⟩
    exact habove x hx
  · rw [full_leaf, hdrop]
    simp
  · exact List.take_append_drop m es

/-- A node cut anywhere between two of its keys is cut in halves, the key between them moving up. -/
theorem split_node_spec {i : ι} {ks : List Bytes} {cs : List (Tree ι h)}
    (ht : (node i ks cs).Pre lo hi) {m : Nat} (hm : 1 ≤ m) (hmn : m + 1 < ks.length) :
    Halves lo hi (node i ks cs).entries (node i (ks.take m) (cs.take (m + 1))) (ks.getD m [])
      (node i (ks.drop (m + 1)) (cs.drop (m + 1))) := by
  obtain ⟨hks, hc⟩ := pre_node.mp ht
  have hlen := hc.length
  obtain ⟨k, hk⟩ : ∃ k, ks[m]? = some k := ⟨ks[m], List.getElem?_eq_getElem (by omega)⟩
  have hsep : ks.getD m [] = k := by simp [hk]
  have hsplit : ks = ks.take m ++ k :: ks.drop (m + 1) := by
    obtain ⟨hlt, rfl⟩ := List.getElem?_eq_some_iff.mp hk
    rw [← List.drop_eq_getElem_cons, List.take_append_drop]
  have hmem : k ∈ ks := List.mem_of_getElem? hk
  have hcs : cs = cs.take (m + 1) ++ cs.drop (m + 1) := (List.take_append_drop _ _).symm
  have hchain := hc
  rw [hsplit, hcs] at hchain
  obtain ⟨hl, hs, hr⟩ := (Chain.append (by rw [List.length_take, List.length_take]; omega)).mp
    hchain
  rw [hsep]
  refine ⟨hs, hks _ hmem, pre_node.mpr ⟨fun k hk => hks k (List.mem_of_mem_take hk), hl⟩, ?_,
    pre_node.mpr ⟨fun k hk => hks k (List.mem_of_mem_drop hk), hr⟩, ?_, ?_⟩
  · rw [full_node]
    intro hnil
    have := congrArg List.length hnil
    rw [List.length_take, List.length_nil] at this
    omega
  · rw [full_node]
    intro hnil
    have := congrArg List.length hnil
    rw [List.length_drop, List.length_nil] at this
    omega
  · rw [entries_node, entries_node, entries_node, ← List.flatMap_append, ← hcs]

/-- Splitting an overfull subtree. -/
theorem split_spec {t : Tree ι h} (ht : t.Pre lo hi) (hov : cap < t.size) :
    Halves lo hi t.entries t.split.1 t.split.2.1 t.split.2.2 := by
  have hcells := ht.cells_le
  cases h with
  | zero =>
      obtain ⟨i, es, rfl⟩ := t.exists_leaf
      have hthree := Node.three_le_of_overfull hcells hov
        (show hdrLeaf ≤ hdrInternal by decide)
      have hb := Node.splitIndex_bounds hdrLeaf false (leaf i es).cells
        (show 2 ≤ (leaf i es).cells.length by omega)
      have hlen : (leaf i es).cells.length = es.length := by simp
      exact split_leaf_spec ht hb.1 (by have := hb.2; change (leaf i es).splitAt ≤ _ at this; omega)
  | succ h =>
      obtain ⟨i, ks, cs, rfl⟩ := t.exists_node
      have hthree := Node.three_le_of_overfull hcells hov (Nat.le_refl hdrInternal)
      have hb := Node.splitIndex_bounds hdrInternal true (node i ks cs).cells
        (show 2 ≤ (node i ks cs).cells.length by omega)
      have hb' := Node.splitIndex_internal hcells hov
      have hlen : (node i ks cs).cells.length = ks.length := by simp
      exact split_node_spec ht hb.1
        (by change (node i ks cs).splitAt ≤ _ at hb'; omega)

/-! ## Merging two siblings -/

/-- Merge two adjacent subtrees, as `Node.merge` merges their roots. -/
def merge : {h : Nat} → Tree ι h → Bytes → Tree ι h → Tree ι h
  | 0, l, _, r => leaf (LeafNode.label l) (LeafNode.entries l ++ LeafNode.entries r)
  | _ + 1, l, s, r => node (InnerNode.label l) (InnerNode.keys l ++ [s] ++ InnerNode.keys r)
      (InnerNode.children l ++ InnerNode.children r)

@[simp] theorem merge_leaf (i j : ι) (s : Bytes) (es es' : List Entry) :
    merge (leaf i es) s (leaf j es') = leaf i (es ++ es') := rfl

@[simp] theorem merge_node (i j : ι) (s : Bytes) (ks ks' : List Bytes) (cs cs' : List (Tree ι h)) :
    merge (node i ks cs) s (node j ks' cs') = node i (ks ++ [s] ++ ks') (cs ++ cs') := rfl

@[simp] theorem entries_merge (l : Tree ι h) (s : Bytes) (r : Tree ι h) :
    (merge l s r).entries = l.entries ++ r.entries := by
  cases h with
  | zero => rfl
  | succ h =>
      obtain ⟨i, ks, cs, rfl⟩ := l.exists_node
      obtain ⟨j, ks', cs', rfl⟩ := r.exists_node
      simp

/-- Merging two siblings around the separator between them. -/
theorem merge_spec {l r : Tree ι h} {s : Bytes} (hs : SepIn lo hi s)
    (hlen : Node.internalCell s ≤ maxCell) (hl : l.Pre lo (some s)) (hr : r.Pre (some s) hi)
    (hfull : l.Full ∨ r.Full) : (merge l s r).Pre lo hi ∧ (merge l s r).Full := by
  cases h with
  | zero =>
      obtain ⟨i, es, rfl⟩ := l.exists_leaf
      obtain ⟨j, es', rfl⟩ := r.exists_leaf
      obtain ⟨hs₁, he₁⟩ := pre_leaf.mp hl
      obtain ⟨hs₂, he₂⟩ := pre_leaf.mp hr
      rw [merge_leaf]
      refine ⟨pre_leaf.mpr ⟨OrdMap.sorted_append.mpr ⟨hs₁, hs₂, fun a ha b hb => ?_⟩,
        fun e he => ?_⟩, ?_⟩
      · exact lt_of_lt_of_le ((he₁ a ha).1.2 s rfl) ((he₂ b hb).1.1 s rfl)
      · rcases List.mem_append.mp he with he | he
        · exact ⟨(he₁ e he).1.widen_hi hs, (he₁ e he).2⟩
        · exact ⟨(he₂ e he).1.widen_lo hs, (he₂ e he).2⟩
      · rw [full_leaf]
        rcases hfull with hf | hf
        · exact fun hnil => hf (List.append_eq_nil_iff.mp hnil).1
        · exact fun hnil => hf (List.append_eq_nil_iff.mp hnil).2
  | succ h =>
      obtain ⟨i, ks, cs, rfl⟩ := l.exists_node
      obtain ⟨j, ks', cs', rfl⟩ := r.exists_node
      obtain ⟨hk₁, hc₁⟩ := pre_node.mp hl
      obtain ⟨hk₂, hc₂⟩ := pre_node.mp hr
      rw [merge_node]
      refine ⟨pre_node.mpr ⟨fun k hk => ?_, ?_⟩, by simp⟩
      · simp only [List.mem_append, List.mem_singleton] at hk
        rcases hk with (hk | rfl) | hk
        · exact hk₁ k hk
        · exact hlen
        · exact hk₂ k hk
      · rw [List.append_assoc, List.singleton_append]
        exact (Chain.append hc₁.length).mpr ⟨hc₁, hs, hc₂⟩

end Tree

end Edb.BTree
