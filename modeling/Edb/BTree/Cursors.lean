import Edb.BTree.Scan
import Edb.BTree.Soundness

/-!
# Cursors over a checked tree

`steps n c` records what `n` calls to `nextEntry` return. On a root that passes the structural check
the calls list the entries of the range from the end the direction starts at, and then return
nothing for ever (`cursor_exact`): the `i`-th call returns the `i`-th entry of the range, if there
is one.
-/

namespace Edb.BTree

open Edb.Lib

namespace Cursor

/-- What so many calls in a row return. -/
def steps : Nat → Cursor → BTreeM (List (Option Entry))
  | 0, _ => pure []
  | n + 1, c => do
      let (item, c) ← c.nextEntry
      let items ← steps n c
      pure (item :: items)

/-- The calls return the remaining entries one by one, then nothing. -/
theorem steps_spec {p : Pager Node} {c : Cursor} {rest : List Entry} (hc : p.Coherent)
    (hcount : 2 ≤ p.metadata.pageCount) (hrest : Remaining p c rest) (n : Nat) :
    ∃ p', steps n c p = .ok ((List.range n).map fun i => rest[i]?) p' ∧ Pager.Peeks p p' := by
  induction n generalizing p c rest with
  | zero => exact ⟨p, rfl, Pager.Peeks.refl hc⟩
  | succ n ih =>
      obtain ⟨c', p₁, hnext, hpeeks, hrest'⟩ := nextEntry_spec hc hcount hrest
      obtain ⟨p₂, hsteps, hpeeks₂⟩ := ih hpeeks.coherent
        (by rw [peeks_pageCount hpeeks]; exact hcount) hrest'
      refine ⟨p₂, ?_, hpeeks.trans hpeeks₂⟩
      rw [steps, Lib.bind_of_ok hnext]
      simp only
      rw [Lib.bind_of_ok hsteps, List.range_succ_eq_map, List.map_cons, List.map_map]
      have htail : (rest.head? :: (List.range n).map fun i => rest.tail[i]?) =
          rest[0]? :: (List.range n).map ((fun i => rest[i]?) ∘ Nat.succ) := by
        rw [List.head?_eq_getElem?]
        congr 1
        exact List.map_congr_left fun i _ => by rw [List.getElem?_tail]; rfl
      rw [← htail]
      rfl

end Cursor

variable {p p' q : Pager Node} {root : Nat} {stats : TreeStats}

/-- Open a cursor and call it so many times. -/
def cursorItems (root : Nat) (dir : Direction) (lo hi : Option Bytes) (n : Nat) :
    BTreeM (List (Option Entry)) := do
  let c ← Cursor.openAt root dir lo hi
  c.steps n

/-- **Range cursors are exact in both directions.** On a root that passes the check, for any bounds
and direction, the `i`-th call returns the `i`-th of the entries `[lo, hi)` of the tree, ascending
forward and descending backward, and nothing from the end of these on. -/
theorem cursor_exact (hc : p.Coherent) (hrun : validate root p = .ok stats p') :
    Pager.Peeks p p' ∧ OrdMap.Sorted (traversal p root) ∧
      ∀ q, Pager.Peeks p q → ∀ dir lo hi n, ∃ q', cursorItems root dir lo hi n q =
        .ok ((List.range n).map fun i => (Cursor.scanned dir lo hi (traversal p root))[i]?) q' := by
  obtain ⟨h, t, ht, -⟩ := exists_tree_of_validate hc hrun
  have hlabel : t.label = root := ht.label
  subst hlabel
  have hheight : h < p.metadata.pageCount := ht.height
  have htraversal : traversal p t.label = t.entries := inOrder_eq ht.stands hheight
  rw [htraversal]
  refine ⟨(validate_eq_ok hc hrun).2, ht.ordered.entries_sorted.1, fun q hpeeks dir lo hi n => ?_⟩
  rw [← peeks_pageCount hpeeks] at hheight
  obtain ⟨c, q₁, hopen, hpeeks₁, hrest⟩ := Cursor.openAt_spec hpeeks.coherent
    (ht.stands.peeks hpeeks) ht.ordered hheight dir lo hi
  -- the root is a page of the file, so the file has more than the two meta pages
  have hcount : 2 ≤ q₁.metadata.pageCount := by
    have hroot := nodeAt_eq_ok ht.stands.root
    have hfirst : firstDataPage = 2 := rfl
    rw [peeks_pageCount hpeeks₁, peeks_pageCount hpeeks]
    omega
  obtain ⟨q₂, hsteps, -⟩ := Cursor.steps_spec hpeeks₁.coherent hcount hrest n
  refine ⟨q₂, ?_⟩
  unfold cursorItems
  rw [Lib.bind_of_ok hopen, hsteps]

theorem cursor_exact_twoLeaves :
    ∃ p', validate 2 twoLeaves = .ok (TreeStats.mk 2 3 3) p' ∧
      ∀ q, Pager.Peeks twoLeaves q → ∀ dir lo hi n, ∃ q',
        cursorItems 2 dir lo hi n q = .ok ((List.range n).map fun i =>
          (Cursor.scanned dir lo hi (traversal twoLeaves 2))[i]?) q' := by
  have hc : twoLeaves.Coherent :=
    ⟨List.nodup_nil, (fun _ _ h => nomatch h), (fun _ _ h => nomatch h)⟩
  exact ⟨_, rfl, (cursor_exact hc rfl).2.2⟩

/-- Backward from the separator, which is itself a key: the scan starts below it. -/
example : ∃ q', cursorItems 2 .backward none (some [6]) 4 twoLeaves =
    .ok [some ([5], [8]), some ([1], [7]), none, none] q' := ⟨_, rfl⟩

end Edb.BTree
