import Edb.BTree.Refinement
import Edb.BTree.Split
import Edb.Lib.Result

/-!
# When a deletion succeeds

Deleting a key writes the nodes on its path again, smaller or, where a child was left underfull,
with that child mended: merged with a sibling, or the two shared out anew when they do not fit
one page. Sharing out replaces the separator between the two by another key, which may be longer.
The parent is then written without the check for overflow that insertion makes.

* Every other write fits: erased leaves, merged nodes and both halves of what is shared out
  (`split_size`).
* A deletion succeeds exactly when no parent on the path outgrows its page that way
  (`delete_succeeds_iff`), and one may (`deletion_outgrows_root`).
-/

namespace Edb.BTree

open Edb.Lib
open BTree.Tree (leaf node WF RootWF Pre)

/-! ## Shared-out nodes fit -/

namespace Tree

variable {ι : Type} {h : Nat} {lo hi : Option Bytes}

/-- Both halves of a node that is not too large fit a page. -/
theorem split_size {t : Tree ι h} (ht : t.Pre lo hi) (hov : cap < t.size)
    (hle : t.size ≤ cap + maxCell + if h ≠ 0 then minFill else 0) :
    t.split.1.size ≤ cap ∧ t.split.2.2.size ≤ cap := by
  -- some split fits on both sides, so the one chosen does
  have hfits : Node.Fits t.headerLen (decide (h ≠ 0)) t.cells t.splitAt := by
    have hhdr : t.headerLen ≤ hdrInternal := by
      cases h with
      | zero => exact (by decide : hdrLeaf ≤ hdrInternal)
      | succ h => exact Nat.le_refl _
    obtain ⟨m, hm, hmn, hf⟩ := Node.exists_fits (decide (h ≠ 0)) ht.cells_le hhdr hov
      (by simpa [size] using hle)
    exact Node.splitIndex_fits hm hmn hf
  obtain ⟨hleft, hright⟩ := hfits
  cases h with
  | zero =>
    obtain ⟨i, es, rfl⟩ := t.exists_leaf
    rw [split_leaf]
    generalize (leaf i es).splitAt = m at hleft hright
    rw [cells_leaf] at hleft hright
    constructor
    · rw [size, cells_leaf, List.map_take]
      exact hleft
    · rw [size, cells_leaf, List.map_drop]
      have hsum := List.sum_take_add_sum_drop (es.map fun e => Node.leafCell e.1 e.2) m
      rw [Node.rightLen] at hright
      simp only [headerLen_leaf] at hright ⊢
      simp only [ne_eq, not_true_eq_false, decide_false, Bool.false_eq_true, if_false] at hright
      omega
  | succ h =>
    obtain ⟨i, ks, cs, rfl⟩ := t.exists_node
    rw [split_node]
    generalize (node i ks cs).splitAt = m at hleft hright
    rw [cells_node] at hleft hright
    constructor
    · rw [size, cells_node, List.map_take]
      exact hleft
    · rw [size, cells_node, List.map_drop]
      -- the key in the middle moves up, and is in neither half
      have hsum := List.sum_take_add_sum_drop (ks.map Node.internalCell) (m + 1)
      rw [Node.sum_take_succ] at hsum
      rw [Node.rightLen] at hright
      simp only [headerLen_node] at hright ⊢
      simp only [ne_eq, Nat.succ_ne_zero, not_false_eq_true, decide_true, if_true] at hright
      omega

/-- What merging costs: one header less, and the separator if it comes down. -/
theorem size_merge (l r : Tree ι h) (s : Bytes) :
    (merge l s r).size + l.headerLen
      = l.size + r.size + if h ≠ 0 then Node.internalCell s else 0 := by
  cases h with
  | zero =>
    obtain ⟨i, es, rfl⟩ := l.exists_leaf
    obtain ⟨j, es', rfl⟩ := r.exists_leaf
    rw [merge_leaf]
    simp [size]
    omega
  | succ h =>
    obtain ⟨i, ks, cs, rfl⟩ := l.exists_node
    obtain ⟨j, ks', cs', rfl⟩ := r.exists_node
    rw [merge_node]
    simp [size]
    omega

end Tree

/-! ## Deletion without page limits -/

namespace Shape

variable {h : Nat} {lo hi : Option Bytes} {key : Bytes}

/-- The separators and children of a node whose child at `ci` is mended: merged with its sibling,
or shared out with it. -/
def mended (ks : List Bytes) (cs : List (Shape h)) (ci : Nat) : List Bytes × List (Shape h) :=
  let l := if ci > 0 then ci - 1 else ci
  match cs[l]?, cs[l + 1]? with
  | some left, some right =>
      let merged := Tree.merge left (ks.getD l []) right
      if merged.size > cap then
        (ks.set l merged.split.2.1, (cs.set l merged.split.1).set (l + 1) merged.split.2.2)
      else (ks.eraseIdx l, (cs.set l merged).eraseIdx (l + 1))
  | _, _ => (ks, cs)

/-- What a deletion makes of a subtree when pages have no limit; none when the key is absent. -/
def removed (key : Bytes) : {h : Nat} → Shape h → Option (Shape h)
  | 0, t =>
      match OrdMap.find key (LeafNode.entries t) with
      | none => none
      | some _ => some (leaf () (OrdMap.erase key (LeafNode.entries t)))
  | _ + 1, t =>
      let ks := InnerNode.keys t
      let ci := routeIndex ks key
      match (InnerNode.children t)[ci]? with
      | none => none
      | some c =>
          match removed key c with
          | none => none
          | some c =>
              let cs := (InnerNode.children t).set ci c
              if c.size < minFill then some (node () (mended ks cs ci).1 (mended ks cs ci).2)
              else some (node () ks cs)

/-- The child at `ci` does not fit one page with its sibling, and the node has no room for the
separator that the two get when they are shared out. -/
def crowded (ks : List Bytes) (cs : List (Shape h)) (ci : Nat) : Bool :=
  let l := if ci > 0 then ci - 1 else ci
  match cs[l]?, cs[l + 1]? with
  | some left, some right =>
      let merged := Tree.merge left (ks.getD l []) right
      decide (cap < merged.size) &&
        decide (cap + (ks.getD l []).length < (node () ks cs).size + merged.split.2.1.length)
  | _, _ => false

/-- On the path of the key, some node is crowded once the key is gone from an underfull child. -/
def overgrows (key : Bytes) : {h : Nat} → Shape h → Bool
  | 0, _ => false
  | _ + 1, t =>
      let ks := InnerNode.keys t
      let ci := routeIndex ks key
      match (InnerNode.children t)[ci]? with
      | none => false
      | some c => overgrows key c ||
          match removed key c with
          | none => false
          | some c =>
              let cs := (InnerNode.children t).set ci c
              decide (c.size < minFill) && crowded ks cs ci

section Equations

variable (i : Unit) (es : List Entry) (ks : List Bytes) (cs : List (Shape h))

/-- A removal below a node goes on in the routed child, and mends the node behind it. -/
theorem removed_node {c : Shape h} (hc : cs[routeIndex ks key]? = some c) :
    removed key (node i ks cs) = match removed key c with
      | none => none
      | some c =>
          let cs := cs.set (routeIndex ks key) c
          if c.size < minFill then
            some (node () (mended ks cs (routeIndex ks key)).1 (mended ks cs (routeIndex ks key)).2)
          else some (node () ks cs) := by
  change (match cs[routeIndex ks key]? with | none => _ | some c => _) = _
  rw [hc]
  rfl

/-- A removal overgrows the node itself or something on the path below it. -/
theorem overgrows_node {c : Shape h} (hc : cs[routeIndex ks key]? = some c) :
    overgrows key (node i ks cs) = (overgrows key c || match removed key c with
      | none => false
      | some c =>
          let cs := cs.set (routeIndex ks key) c
          decide (c.size < minFill) && crowded ks cs (routeIndex ks key)) := by
  change (match cs[routeIndex ks key]? with | none => _ | some c => _) = _
  rw [hc]
  rfl

end Equations

/-- Mending makes a node too large for its page exactly when it is crowded: a merge only takes a
separator away, sharing out replaces one. -/
theorem size_mended {ks : List Bytes} {cs : List (Shape h)} (ci : Nat)
    (hlen : cs.length = ks.length + 1) (hs : (node () ks cs).size ≤ cap) :
    cap < (node () (mended ks cs ci).1 (mended ks cs ci).2).size ↔ crowded ks cs ci = true := by
  obtain ⟨l, hl⟩ : ∃ l, l = if ci > 0 then ci - 1 else ci := ⟨_, rfl⟩
  rw [mended, crowded]
  simp only [← hl]
  rw [Tree.size, Tree.cells_node, Tree.headerLen_node] at hs ⊢
  split
  · next left right _ hright =>
    obtain ⟨hl', -⟩ := List.getElem?_eq_some_iff.mp hright
    obtain ⟨ks₁, s, ks₃, rfl, rfl⟩ : ∃ ks₁ s ks₃, ks = ks₁ ++ s :: ks₃ ∧ ks₁.length = l :=
      ⟨ks.take l, ks.get ⟨l, by omega⟩, ks.drop (l + 1),
        by rw [List.get_eq_getElem, ← List.drop_eq_getElem_cons, List.take_append_drop],
        List.length_take_of_le (by omega)⟩
    have hget : (ks₁ ++ s :: ks₃).getD ks₁.length [] = s := by simp
    rw [hget]
    generalize Tree.merge left s right = merged
    by_cases hm : cap < merged.size
    · rw [if_pos hm, decide_eq_true hm, Bool.true_and, decide_eq_true_eq]
      simp only [Tree.size, Tree.cells_node, Tree.headerLen_node, List.set_append_right _ _
        (Nat.le_refl _), Nat.sub_self, List.set_cons_zero, List.map_append, List.map_cons,
        List.sum_append, List.sum_cons, Node.internalCell] at hs ⊢
      omega
    · rw [if_neg hm, decide_eq_false hm, Bool.false_and]
      simp only [List.eraseIdx_append_of_length_le (Nat.le_refl _), Nat.sub_self,
        List.eraseIdx_cons_zero, List.map_append, List.map_cons, List.sum_append, List.sum_cons,
        Bool.false_eq_true, iff_false] at hs ⊢
      omega
  · simp only [Bool.false_eq_true, iff_false]
    omega

/-- Rebalancing succeeds: whatever it writes below the node fits. -/
theorem rebalance_eq {ks : List Bytes} {cs : List (Shape h)} {ci : Nat} {c c' : Shape h}
    (hchain : Chain WF lo ks cs hi) (hlens : ∀ k ∈ ks, Node.internalCell k ≤ maxCell)
    (hks : ks ≠ []) (hget : cs[ci]? = some c) (hc' : ∀ a b, c.WF a b → c'.Pre a b)
    (hsmall : c'.size < minFill) :
    rebalance ks (cs.set ci c') ci = .ok (mended ks (cs.set ci c') ci) := by
  have hlen := hchain.length
  have hpos := List.length_pos_iff.mpr hks
  obtain ⟨hci, -⟩ := List.getElem?_eq_some_iff.mp hget
  obtain ⟨l, hl⟩ : ∃ l, l = if ci > 0 then ci - 1 else ci := ⟨_, rfl⟩
  have hcase : ci = l ∨ ci = l + 1 := by
    split at hl <;> omega
  have hll : l + 1 < cs.length := by
    split at hl <;> omega
  obtain ⟨cs₁, x, y, cs₃, rfl, hcl⟩ := exists_pair hll
  obtain ⟨ks₁, s, ks₃, rfl, hkl⟩ : ∃ ks₁ s ks₃, ks = ks₁ ++ [s] ++ ks₃ ∧ ks₁.length = l := by
    refine ⟨ks.take l, ks.get ⟨l, by omega⟩, ks.drop (l + 1), ?_,
      List.length_take_of_le (by omega)⟩
    rw [List.append_assoc, List.singleton_append, List.get_eq_getElem,
      ← List.drop_eq_getElem_cons, List.take_append_drop]
  obtain ⟨hmid, -, -, -⟩ := Chain.segment (by omega) (by rfl) hchain
  obtain ⟨hsep, hx, hy⟩ := Chain.pair.mp hmid
  have hs : Node.internalCell s ≤ maxCell := hlens s (by simp)
  -- one of the two is the child that shrank, the other is as it was
  obtain ⟨x', y', hset, hx', hy', hfull, hsum⟩ : ∃ x' y', (cs₁ ++ [x, y] ++ cs₃).set ci c' =
      cs₁ ++ [x', y'] ++ cs₃ ∧ x'.Pre (ks₁.getLast?.or lo) (some s) ∧
      y'.Pre (some s) (ks₃.head?.or hi) ∧ (x'.Full ∨ y'.Full) ∧
      x'.size + y'.size < minFill + cap := by
    subst hcl
    rcases hcase with rfl | rfl
    · have : c = x := by simpa using hget.symm
      subst this
      have hle := hy.size
      exact ⟨c', y, by simp, hc' _ _ hx, hy.pre, .inr hy.full, by omega⟩
    · have : c = y := by simpa using hget.symm
      subst this
      have hle := hx.size
      exact ⟨x, c', by simp, hx.pre, hc' _ _ hy, .inl hx.full, by omega⟩
  obtain ⟨hmpre, -⟩ := Tree.merge_spec hsep hs hx' hy' hfull
  have hmsize := Tree.size_merge x' y' s
  have hgetx : (cs₁ ++ [x', y'] ++ cs₃)[l]? = some x' := by
    rw [← hcl]
    simp
  have hgety : (cs₁ ++ [x', y'] ++ cs₃)[l + 1]? = some y' := by
    rw [← hcl]
    simp
  have hgets : (ks₁ ++ [s] ++ ks₃).getD l [] = s := by
    rw [← hkl]
    simp
  rw [hset, rebalance, mended]
  simp only [← hl, hgetx, hgety, hgets]
  split
  · next hov =>
    have hbound : (Tree.merge x' s y').size ≤ cap + maxCell + if h ≠ 0 then minFill else 0 := by
      have hcap : cap = 4080 := rfl
      have hmin : minFill = 1020 := rfl
      have hmax : maxCell = 2034 := rfl
      split at hmsize
      · next hne =>
        rw [if_pos hne]
        omega
      · next hne =>
        rw [if_neg hne]
        omega
    obtain ⟨hleft, hright⟩ := Tree.split_size hmpre hov hbound
    rw [put_eq_ok.2 ⟨rfl, hleft⟩, put_eq_ok.2 ⟨rfl, hright⟩]
    rfl
  · next hfit =>
    rw [put_eq_ok.2 ⟨rfl, by omega⟩]
    rfl

theorem putDone_overfull {t : Shape h} (hov : cap < t.size) :
    putDone t = .error (.pager (.payloadTooLarge t.size cap)) := by
  rw [putDone, put, if_pos hov]
  rfl

/-- What a deletion returns when nothing outgrows its page. -/
def outcome : Option (Shape h) → Del (Shape h)
  | none => .unchanged
  | some t => .done t (decide (t.size < minFill))

theorem size_erase_le (es : List Entry) (key : Bytes) :
    (leaf () (OrdMap.erase key es) : Shape 0).size ≤ (leaf () es : Shape 0).size := by
  induction es with
  | nil => exact Nat.le_refl _
  | cons e es ih =>
    simp only [Tree.size, Tree.cells_leaf, Tree.headerLen_leaf, OrdMap.erase, List.filter_cons,
      List.map_cons, List.sum_cons] at ih ⊢
    split
    · rw [List.map_cons, List.sum_cons]
      omega
    · omega

/-- The step of the recursion: what is done at a node once its child was rebuilt. -/
theorem deleteRec_step {i : Unit} {ks : List Bytes} {cs : List (Shape h)} {c c' : Shape h}
    (ht : (node i ks cs).Pre lo hi) (hks : ks ≠ []) (hs : (node i ks cs).size ≤ cap)
    (hget : cs[routeIndex ks key]? = some c)
    (hd : deleteRec key c = .ok (.done c' (decide (c'.size < minFill)))) :
    deleteRec key (node i ks cs) =
      if c'.size < minFill then
        putDone (node () (mended ks (cs.set (routeIndex ks key) c') (routeIndex ks key)).1
          (mended ks (cs.set (routeIndex ks key) c') (routeIndex ks key)).2)
      else .ok (outcome (some (node () ks (cs.set (routeIndex ks key) c')))) := by
  obtain ⟨hlens, hchain⟩ := Tree.pre_node.mp ht
  rw [deleteRec_node i ks cs hget, hd, Result.ok_bind]
  dsimp only
  rw [repair]
  by_cases hsmall : c'.size < minFill
  · have hpre : ∀ a b, c.WF a b → c'.Pre a b := by
      intro a b hwf
      exact (deleteRec_spec hwf.pre (fun _ => hwf.full) hd).1
    rw [if_pos hsmall, if_pos (decide_eq_true hsmall),
      rebalance_eq hchain hlens hks hget hpre hsmall, Result.ok_bind]
  · rw [if_neg hsmall, if_neg (by simpa using hsmall), Result.ok_bind]
    exact putDone_eq_ok.2 ⟨rfl, hs, rfl⟩

/-- Deletion does what it would do without page limits, unless a node outgrows its page. -/
theorem deleteRec_eq {t : Shape h} (ht : t.Pre lo hi) (hf : h ≠ 0 → t.Full) (hs : t.size ≤ cap)
    (hgrow : overgrows key t = false) : deleteRec key t = .ok (outcome (removed key t)) := by
  induction h generalizing lo hi with
  | zero =>
    obtain ⟨i, es, rfl⟩ := t.exists_leaf
    rw [deleteRec_leaf]
    show _ = Except.ok (outcome (match OrdMap.find key es with
      | none => none
      | some _ => some (leaf () (OrdMap.erase key es))))
    cases OrdMap.find key es with
    | none => rfl
    | some v =>
      have hle := size_erase_le es key
      exact putDone_eq_ok.2 ⟨rfl, Nat.le_trans hle hs, rfl⟩
  | succ h ih =>
    obtain ⟨i, ks, cs, rfl⟩ := t.exists_node
    obtain ⟨-, hchain⟩ := Tree.pre_node.mp ht
    obtain ⟨-, -, cs₁, c, cs₃, -, hcs, -, hl₂⟩ :=
      hchain.at_index (routeIndex ks key) (OrdMap.partitionPoint_le _ _)
    have hget : cs[routeIndex ks key]? = some c := by
      rw [hcs, ← hl₂]
      simp
    obtain ⟨a, b, hwf⟩ : ∃ a b, c.WF a b := hchain.exists_bounds (by rw [hcs]; simp)
    -- nothing overgrows below, so the child does as `removed` says
    rw [overgrows_node i ks cs hget, Bool.or_eq_false_iff] at hgrow
    have hd := ih hwf.pre (fun _ => hwf.full) hwf.size hgrow.1
    rw [removed_node i ks cs hget]
    cases hrem : removed key c with
    | none =>
      rw [hrem] at hd
      rw [deleteRec_node i ks cs hget, hd]
      rfl
    | some c' =>
      rw [hrem] at hd
      have hfit := hgrow.2
      rw [hrem] at hfit
      dsimp only at hfit
      rw [deleteRec_step ht (hf (Nat.succ_ne_zero h)) hs hget hd]
      dsimp only
      split
      · next hsmall =>
        rw [decide_eq_true hsmall, Bool.true_and] at hfit
        -- the mended node would only be too large where it overgrows
        refine putDone_eq_ok.2 ⟨rfl, Nat.le_of_not_lt fun hov => ?_, rfl⟩
        have hlen : (cs.set (routeIndex ks key) c').length = ks.length + 1 := by
          rw [List.length_set]
          exact hchain.length
        have hcrowded := (size_mended _ hlen hs).1 hov
        exact Bool.false_ne_true (hfit.symm.trans hcrowded)
      · rfl

/-- A node that outgrows its page is refused by the pager. -/
theorem deleteRec_overgrown {t : Shape h} (ht : t.Pre lo hi) (hf : h ≠ 0 → t.Full)
    (hs : t.size ≤ cap) (hgrow : overgrows key t = true) :
    ∃ size, deleteRec key t = .error (.pager (.payloadTooLarge size cap)) := by
  induction h generalizing lo hi with
  | zero => cases hgrow
  | succ h ih =>
    obtain ⟨i, ks, cs, rfl⟩ := t.exists_node
    obtain ⟨-, hchain⟩ := Tree.pre_node.mp ht
    obtain ⟨-, -, cs₁, c, cs₃, -, hcs, -, hl₂⟩ :=
      hchain.at_index (routeIndex ks key) (OrdMap.partitionPoint_le _ _)
    have hget : cs[routeIndex ks key]? = some c := by
      rw [hcs, ← hl₂]
      simp
    obtain ⟨a, b, hwf⟩ : ∃ a b, c.WF a b := hchain.exists_bounds (by rw [hcs]; simp)
    rw [overgrows_node i ks cs hget] at hgrow
    cases hsub : overgrows key c with
    | true =>
      -- something below overgrows: its error is passed up
      obtain ⟨size, herr⟩ := ih hwf.pre (fun _ => hwf.full) hwf.size hsub
      refine ⟨size, ?_⟩
      rw [deleteRec_node i ks cs hget, herr]
      rfl
    | false =>
      rw [hsub, Bool.false_or] at hgrow
      -- nothing below does, so the node itself is mended beyond the page
      have hd := deleteRec_eq hwf.pre (fun _ => hwf.full) hwf.size hsub
      cases hrem : removed key c with
      | none =>
        rw [hrem] at hgrow
        cases hgrow
      | some c' =>
        rw [hrem] at hd hgrow
        dsimp only at hgrow
        rw [Bool.and_eq_true, decide_eq_true_eq] at hgrow
        obtain ⟨hsmall, hcrowded⟩ := hgrow
        rw [deleteRec_step ht (hf (Nat.succ_ne_zero h)) hs hget hd, if_pos hsmall]
        have hlen : (cs.set (routeIndex ks key) c').length = ks.length + 1 := by
          rw [List.length_set]
          exact hchain.length
        exact ⟨_, putDone_overfull ((size_mended _ hlen hs).2 hcrowded)⟩

/-- Deleting from a whole tree succeeds exactly when no node outgrows its page. -/
theorem delete_ok_iff {t : Any} (ht : t.2.RootWF) (key : Bytes) :
    (∃ t', delete t key = .ok t') ↔ overgrows key t.2 = false := by
  cases hgrow : overgrows key t.2 with
  | false =>
    have hd := deleteRec_eq ht.pre ht.full ht.size hgrow
    rw [delete, hd, Result.ok_bind]
    cases removed key t.2 with
    | none => exact ⟨fun _ => rfl, fun _ => ⟨t, rfl⟩⟩
    | some t' => exact ⟨fun _ => rfl, fun _ => ⟨collapse t', rfl⟩⟩
  | true =>
    obtain ⟨size, hd⟩ := deleteRec_overgrown ht.pre ht.full ht.size hgrow
    rw [delete, hd, Result.error_bind]
    constructor
    · rintro ⟨t', ht'⟩
      cases ht'
    · intro h
      cases h

end Shape

/-! ## Deletion in a session -/

variable {p p' : Pager Node} {t : PageTree}

/-- Deletion in the pager succeeds exactly when it does on the tree the pager holds. -/
theorem delete_ok_iff_shape (hp : p.Ok) (ht : Holds p t) (key : Bytes) :
    (∃ e p', delete t.root key p = .ok e p') ↔ ∃ s, Shape.delete t.shape key = .ok s := by
  have hsim := delete_sim key hp ht
  unfold Simulates at hsim
  cases hs : Shape.delete t.shape key with
  | error err =>
    rw [hs] at hsim
    obtain ⟨p', _, hrun, -⟩ := hsim
    rw [hrun]
    constructor
    · rintro ⟨e, p'', hok⟩
      cases hok
    · rintro ⟨s, hok⟩
      cases hok
  | ok s =>
    rw [hs] at hsim
    obtain ⟨e, p', _, hrun, -⟩ := hsim
    exact ⟨fun _ => ⟨s, rfl⟩, fun _ => ⟨e, p', hrun⟩⟩

/-- **Deletion.** For every intact generation of a session, held as the tree `t`, and every key,
deletion succeeds exactly when no node of `t` on the key's path outgrows its page. -/
theorem delete_succeeds_iff {s : Session} (hrun : SessionRun s) {g : Generation}
    (hg : g ∈ s.generations) (hi : g.intact = true) :
    ∃ t : PageTree, t.root = g.root ∧ t.entries = g.map ∧ Holds s.pager t ∧
      ∀ key, (∃ e p', delete g.root key s.pager = .ok e p') ↔
        Shape.overgrows key t.shape.2 = false := by
  have hok := hrun.ok
  obtain ⟨v, -, htracks⟩ := hok.tracks
  obtain ⟨t, hroot, hmap, -, ht⟩ := hok.held g hg hi
  refine ⟨t, hroot, hmap, ht, fun key => ?_⟩
  rw [← hroot, delete_ok_iff_shape htracks.ok ht key]
  exact Shape.delete_ok_iff (Tree.rootWF_erase.mpr ht.wf) key

/-- The latest tree of a session, its shape being `s`. -/
def LatestShape (s : Shape.Any) : Prop :=
  ∃ p g gs t, SessionRun ⟨p, g :: gs⟩ ∧ g.intact = true ∧ t.root = g.root ∧ t.shape = s ∧ Holds p t

/-- An insert makes the latest tree of a session the latest of a longer one. -/
theorem LatestShape.insert {s s' : Shape.Any} {key value : Bytes} (h : LatestShape s)
    (hs : Shape.insert s key value = .ok s') : LatestShape s' := by
  obtain ⟨p, g, gs, t, hrun, hi, hroot, rfl, ht⟩ := h
  obtain ⟨v, -, htracks⟩ := hrun.ok.tracks
  have hsim := insert_sim key value htracks.ok ht
  rw [hs] at hsim
  obtain ⟨e, p', new, hins, hg, hheld⟩ := hsim
  obtain ⟨hwf, -⟩ := Shape.insert_spec (Tree.rootWF_erase.mpr ht.wf) hs
  obtain ⟨t', hroot', rfl, ht', -, -⟩ := hheld.holds htracks.ok ht hg hwf
  rw [hroot] at hins
  exact ⟨p', _, g :: gs, t', .step hrun (.insert hi hins), rfl, hroot', rfl, ht'⟩

/-- Whatever tree insertions build, some session comes to. -/
theorem LatestShape.inserts (es : List Entry) {s : Shape.Any}
    (hs : es.foldlM (fun t e => Shape.insert t e.1 e.2) Shape.empty = .ok s) : LatestShape s := by
  have hempty : LatestShape Shape.empty := by
    obtain ⟨v, -, htracks⟩ := (SessionRun.start 0).ok.tracks
    obtain ⟨root, p, hrun, -, ht⟩ := create_spec htracks.ok
    exact ⟨p, _, [], _, .step (.start 0) (.create hrun), rfl, rfl, rfl, ht⟩
  generalize Shape.empty = s₀ at hempty hs
  induction es generalizing s₀ with
  | nil =>
    cases hs
    exact hempty
  | cons e es ih =>
    obtain ⟨s₁, hins, hs⟩ := Result.bind_eq_ok.1 hs
    exact ih s₁ (hempty.insert hins) hs

/-- Four leaves under two long separators and a short one. -/
def crowdedEntries : List Entry :=
  [([1], List.replicate 1990 0), (2 :: List.replicate 1900 0, List.replicate 95 0),
    (3 :: List.replicate 1900 0, List.replicate 95 0), ([4], List.replicate 500 0),
    ([5], List.replicate 1990 0), (3 :: 1 :: List.replicate 998 0, List.replicate 996 0),
    ([0], List.replicate 1990 0)]

/-- Before the last two of the entries, deleting `[5]` merges the last two of three leaves, and the
root has room for what is left. -/
theorem delete_succeeds_crowded : ∃ p g gs t, SessionRun ⟨p, g :: gs⟩ ∧ Holds p t ∧
    t.root = g.root ∧ t.1 = 1 ∧ ∃ e p', delete g.root [5] p = .ok e p' := by
  obtain ⟨s, hs, hheight, hgrow⟩ : ∃ s,
      (crowdedEntries.take 5).foldlM (fun t e => Shape.insert t e.1 e.2) Shape.empty = .ok s ∧
        s.1 = 1 ∧ Shape.overgrows [5] s.2 = false := by
    have heval : (match (crowdedEntries.take 5).foldlM (fun t e => Shape.insert t e.1 e.2)
          Shape.empty with
        | .ok s => decide (s.1 = 1) && !Shape.overgrows [5] s.2
        | .error _ => false) = true := by decide +kernel
    split at heval
    · next s hs =>
      rw [Bool.and_eq_true, decide_eq_true_eq, Bool.not_eq_true'] at heval
      exact ⟨s, hs, heval⟩
    · cases heval
  obtain ⟨p, g, gs, t, hrun, hi, hroot, rfl, ht⟩ := LatestShape.inserts (crowdedEntries.take 5) hs
  obtain ⟨v, -, htracks⟩ := hrun.ok.tracks
  obtain ⟨t', hroot', -, ht', hdel⟩ := delete_succeeds_iff hrun (List.mem_cons_self ..) hi
  obtain rfl := ht'.unique htracks.ok ht (hroot'.trans hroot.symm)
  exact ⟨p, g, gs, t', hrun, ht', hroot', hheight, (hdel _).2 hgrow⟩

/-- Deleting `[5]` shares out the last two leaves between a key of 1000 bytes, for which the root
has no room. -/
theorem deletion_outgrows_root : ∃ p g gs, SessionRun ⟨p, g :: gs⟩ ∧ g.intact = true ∧
    ¬ ∃ e p', delete g.root [5] p = .ok e p' := by
  obtain ⟨s, hs, hgrow⟩ : ∃ s, crowdedEntries.foldlM (fun t e => Shape.insert t e.1 e.2)
      Shape.empty = .ok s ∧ Shape.overgrows [5] s.2 = true := by
    have heval : (match crowdedEntries.foldlM (fun t e => Shape.insert t e.1 e.2) Shape.empty with
        | .ok s => Shape.overgrows [5] s.2
        | .error _ => false) = true := by decide +kernel
    split at heval
    · next s hs => exact ⟨s, hs, heval⟩
    · cases heval
  obtain ⟨p, g, gs, t, hrun, hi, hroot, rfl, ht⟩ := LatestShape.inserts crowdedEntries hs
  obtain ⟨v, -, htracks⟩ := hrun.ok.tracks
  refine ⟨p, g, gs, hrun, hi, ?_⟩
  rw [← hroot, delete_ok_iff_shape htracks.ok ht,
    Shape.delete_ok_iff (Tree.rootWF_erase.mpr ht.wf), hgrow]
  exact Bool.noConfusion

end Edb.BTree
