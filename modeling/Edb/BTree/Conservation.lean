import Edb.BTree.Refinement

/-!
# Copy-on-write keeps count of its pages

A history edits any root that is still intact, not only the latest one, and may hold several
trees. Every edit in it that returns accounts for the pages (`Conserves`): what the old root
reaches and what the call allocated is, page by page, what the new root reaches and what the
edit reports as freed.
-/

namespace Edb.BTree

open Edb.Lib
open BTree.Tree (leaf node Pre)

/-- A step of a session, or an edit at any intact root, or one more tree. -/
inductive HistoryStep : Session → Session → Prop
  | session {s s' : Session} : SessionStep s s' → HistoryStep s s'
  | create {p p' : Pager Node} {gs : List Generation} {root : Nat} : create p = .ok root p' →
      HistoryStep ⟨p, gs⟩ ⟨p', .fresh root [] p' :: gs⟩
  | insert {p p' : Pager Node} {g : Generation} {gs : List Generation} {key value : Bytes}
      {e : Edit} : g ∈ gs → g.intact = true → insert g.root key value p = .ok e p' →
      HistoryStep ⟨p, gs⟩ ⟨p', .fresh e.newRoot (OrdMap.insert key value g.map) p' :: gs⟩
  | delete {p p' : Pager Node} {g : Generation} {gs : List Generation} {key : Bytes} {e : Edit} :
      g ∈ gs → g.intact = true → delete g.root key p = .ok e p' →
      HistoryStep ⟨p, gs⟩ ⟨p', .fresh e.newRoot (OrdMap.erase key g.map) p' :: gs⟩

/-- The histories reachable from a fresh database. -/
inductive HistoryRun : Session → Prop
  | start (cacheBytes : Nat) : HistoryRun ⟨Pager.create cacheBytes, []⟩
  | step {s s' : Session} : HistoryRun s → HistoryStep s s' → HistoryRun s'

/-- A step of a history keeps what every session keeps. -/
theorem HistoryStep.ok {s s' : Session} (hstep : HistoryStep s s') (h : SessionOk s) :
    SessionOk s' := by
  cases hstep with
  | session hstep => exact hstep.ok h
  | create hcreate =>
      obtain ⟨v, -, htracks⟩ := h.tracks
      obtain ⟨root, p₁, hrun, hg, hholds⟩ := create_spec htracks.ok
      rw [hrun] at hcreate
      cases hcreate
      exact (h.grows hg).push (Generation.fresh_heldIn hg.ok hholds rfl rfl)
  | @insert p p₁ g gs key value e hmem hi hrun =>
      obtain ⟨v, -, htracks⟩ := h.tracks
      obtain ⟨t, hroot, hmap, -, ht⟩ := h.held g hmem hi
      rw [← hroot] at hrun
      obtain ⟨new, hg, t', hroot', hmap', ht', -⟩ := insert_holds htracks.ok ht hrun
      rw [hmap] at hmap'
      exact (h.grows hg).push (Generation.fresh_heldIn hg.ok ht' hroot' hmap')
  | @delete p p₁ g gs key e hmem hi hrun =>
      obtain ⟨v, -, htracks⟩ := h.tracks
      obtain ⟨t, hroot, hmap, -, ht⟩ := h.held g hmem hi
      rw [← hroot] at hrun
      obtain ⟨new, hg, t', hroot', hmap', ht', -⟩ := delete_holds htracks.ok ht hrun
      rw [hmap] at hmap'
      exact (h.grows hg).push (Generation.fresh_heldIn hg.ok ht' hroot' hmap')

theorem HistoryRun.ok {s : Session} (hrun : HistoryRun s) : SessionOk s := by
  induction hrun with
  | start cacheBytes => exact (SessionRun.start cacheBytes).ok
  | step _ hstep ih => exact hstep.ok ih

theorem SessionRun.history {s : Session} (hrun : SessionRun s) : HistoryRun s := by
  induction hrun with
  | start cacheBytes => exact .start cacheBytes
  | step _ hstep ih => exact .step ih (.session hstep)

/-! ## Absent keys -/

/-- Deleting a key the tree does not bind changes nothing, at any level. -/
theorem Shape.deleteRec_absent {h : Nat} {lo hi : Option Bytes} {key : Bytes} {t : Shape h}
    (ht : t.Pre lo hi) (habsent : ∀ e ∈ t.entries, e.1 ≠ key) :
    Shape.deleteRec key t = .ok .unchanged := by
  induction h generalizing lo hi with
  | zero =>
      obtain ⟨i, es, rfl⟩ := t.exists_leaf
      rw [Shape.deleteRec_leaf]
      have hfind : OrdMap.find key es = none := by
        rw [Option.eq_none_iff_forall_ne_some]
        intro v hv
        exact habsent (key, v) ((OrdMap.find_eq_some_iff (Tree.pre_leaf.mp ht).1).mp hv) rfl
      rw [hfind]
  | succ h ih =>
      obtain ⟨i, ks, cs, rfl⟩ := t.exists_node
      obtain ⟨-, hchain⟩ := Tree.pre_node.mp ht
      obtain ⟨-, -, cs₁, c, cs₃, -, hcs, -, hl₂⟩ :=
        hchain.at_index (routeIndex ks key) (OrdMap.partitionPoint_le _ _)
      have hget : cs[routeIndex ks key]? = some c := by
        rw [hcs, ← hl₂]
        simp
      have hc : c ∈ cs := by
        rw [hcs]
        simp
      obtain ⟨a, b, hwf⟩ := hchain.exists_bounds hc
      have hchild := ih hwf.pre fun e he => habsent e (by
        rw [Tree.entries_node]
        exact List.mem_flatMap.mpr ⟨c, hc, he⟩)
      rw [Shape.deleteRec_node i ks cs hget, hchild]
      rfl

variable {p p' : Pager Node} {t : PageTree}

/-- Deleting a key that is not there returns the root it was given. -/
theorem delete_absent {key : Bytes} (hp : p.Ok) (ht : Holds p t)
    (habsent : ∀ e ∈ t.entries, e.1 ≠ key) : ∃ p',
      delete t.root key p = .ok { newRoot := t.root, freed := [] } p' ∧ Pager.Grows p p' [] := by
  have hrec : Shape.deleteRec key t.2.erase = .ok .unchanged :=
    Shape.deleteRec_absent (Tree.pre_erase.mpr ht.wf.pre) (by
      rw [Tree.entries_erase]
      exact habsent)
  have hshape : Shape.delete t.shape key = .ok t.shape := by
    change (Shape.deleteRec key t.2.erase >>= _) = _
    rw [hrec]
    rfl
  have hsim := delete_sim key hp ht
  unfold Simulates at hsim
  rw [hshape] at hsim
  obtain ⟨e, p', new, hrun, hg, hheld⟩ := hsim
  rcases hheld.root with ⟨-, rfl, rfl⟩ | ⟨hmoved, -⟩
  · exact ⟨p', hrun, hg⟩
  · exact absurd hrec hmoved

/-! ## Conservation -/

/-- An edit that turned the tree at `root` in `p` into the one at `e.newRoot` in `p'`, handing
out the pages `new` meanwhile, loses no page and uses none twice. -/
structure Conserves (p : Pager Node) (root : Nat) (e : Edit) (p' : Pager Node) (new : List Nat) :
    Prop where
  before : ∃ q, pages root p = .ok (pagesFrom root p) q
  after : ∃ q, pages e.newRoot p' = .ok (pagesFrom e.newRoot p') q
  nodup : (pagesFrom root p ++ new).Nodup
  perm : (pagesFrom root p ++ new).Perm (pagesFrom e.newRoot p' ++ e.freed)
  /-- No page of the old tree reads differently, and none was staged. -/
  kept : ∀ id ∈ pagesFrom root p, p'.view id = p.view id ∧ (p'.IsDirty id → p.IsDirty id)

/-- The walk of the pages meets those of the tree, each once. -/
theorem pagesFrom_spec (hp : p.Ok) (ht : Holds p t) :
    (∃ q, pages t.root p = .ok (pagesFrom t.root p) q) ∧ (pagesFrom t.root p).Perm t.pages := by
  obtain ⟨l, q, hrun, hperm, -⟩ := pages_spec hp ht
  have hl : pagesFrom t.root p = l := by
    unfold pagesFrom
    rw [hrun]
  rw [hl]
  exact ⟨⟨q, hrun⟩, hperm⟩

/-- An edit that trades the pages it freed for the ones it was handed conserves pages. -/
theorem Holds.conserves {t' : PageTree} {e : Edit} {new : List Nat} (hp : p.Ok) (ht : Holds p t)
    (hg : Pager.Grows p p' new) (ht' : Holds p' t') (hroot : t'.root = e.newRoot)
    (hperm : (t'.pages ++ e.freed).Perm (t.pages ++ new)) : Conserves p t.root e p' new := by
  obtain ⟨hwalk, hold⟩ := pagesFrom_spec hp ht
  obtain ⟨hwalk', hnew⟩ := pagesFrom_spec hg.ok ht'
  rw [hroot] at hwalk' hnew
  have hall : (t.pages ++ new).Nodup := by
    refine List.nodup_append.mpr ⟨ht.nodup, (List.nodup_append.mp (hg.nodup hp)).2.1, ?_⟩
    intro a ha b hb hab
    subst hab
    exact hg.fresh hb (ht.owned a ha)
  refine ⟨hwalk, hwalk', (hold.append_right new).nodup_iff.mpr hall, ?_, fun id hid => ?_⟩
  · exact (hold.append_right new).trans (hperm.symm.trans (hnew.symm.append_right e.freed))
  · have howned := ht.owned id (hold.subset hid)
    refine ⟨hg.view id howned, fun hdirty => ?_⟩
    rcases hg.dirty id hdirty with hdirty | hfresh
    · exact hdirty
    · exact absurd howned (hg.fresh hfresh)

theorem beginAllocRecording_ok (hp : p.Ok) : p.beginAllocRecording.Ok :=
  ⟨hp.loads, hp.nodup, hp.range, hp.count, hp.coherent, hp.resident⟩

theorem Holds.beginAllocRecording (ht : Holds p t) : Holds p.beginAllocRecording t :=
  ht.frame (fun _ _ => rfl) fun id hid => ht.owned id hid

/-- The recording holds what was handed out since it began. -/
theorem takeAllocRecording_grows {new : List Nat} (hg : Pager.Grows p.beginAllocRecording p' new) :
    p'.takeAllocRecording.1 = new := by
  change p'.allocLog.getD [] = new
  rw [hg.log]
  rfl

/-- **Copy-on-write conserves pages.** At every intact root of a history, an insert or a delete
that returns turns the pages of the old tree and those it allocated into the pages of the new
tree and those it reports freed, each once; no page of the old tree is rewritten; and deleting an
absent key returns the same root, having freed and allocated nothing. -/
theorem edit_conserves_pages {s : Session} (hrun : HistoryRun s) {g : Generation}
    (hg : g ∈ s.generations) (hi : g.intact = true) {p : Pager Node}
    (hp : p = s.pager.beginAllocRecording) :
    (∀ key value e p', insert g.root key value p = .ok e p' →
      Conserves p g.root e p' p'.takeAllocRecording.1) ∧
    (∀ key e p', delete g.root key p = .ok e p' →
      Conserves p g.root e p' p'.takeAllocRecording.1) ∧
    ∀ key q, lookup g.root key p = .ok none q → ∃ p',
      delete g.root key p = .ok { newRoot := g.root, freed := [] } p' ∧
        p'.takeAllocRecording.1 = [] := by
  have hok := hrun.ok
  obtain ⟨v, -, htracks⟩ := hok.tracks
  obtain ⟨t, hroot, hmap, -, ht⟩ := hok.held g hg hi
  subst hp
  have hp := beginAllocRecording_ok htracks.ok
  have hheld := ht.beginAllocRecording
  rw [← hroot]
  refine ⟨fun key value e p' h => ?_, fun key e p' h => ?_, fun key q h => ?_⟩
  · obtain ⟨new, hg, t', hroot', -, ht', hperm⟩ := insert_holds hp hheld h
    rw [takeAllocRecording_grows hg]
    exact hheld.conserves hp hg ht' hroot' hperm
  · obtain ⟨new, hg, t', hroot', -, ht', hperm⟩ := delete_holds hp hheld h
    rw [takeAllocRecording_grows hg]
    exact hheld.conserves hp hg ht' hroot' hperm
  · obtain ⟨q', hlookup, -⟩ := lookup_spec hp hheld key
    rw [hlookup] at h
    have hfind : OrdMap.find key t.entries = none := (EStateM.Result.ok.inj h).1
    have habsent : ∀ e ∈ t.entries, e.1 ≠ key := by
      rintro ⟨k, v⟩ he rfl
      have hfound : OrdMap.find k t.entries = some v :=
        (OrdMap.find_eq_some_iff ht.wf.pre.entries_sorted.1).mpr he
      exact nomatch hfind.symm.trans hfound
    obtain ⟨p', hdelete, hg⟩ := delete_absent hp hheld habsent
    exact ⟨p', hdelete, takeAllocRecording_grows hg⟩

/-- Inserting into the tree at page 3 moves it, and deleting a key it lacks does not. -/
theorem edit_conserves_pages_inserted :
    (∃ e p', insert 3 [2] [8] insertedPager.beginAllocRecording = .ok e p' ∧
      Conserves insertedPager.beginAllocRecording 3 e p' p'.takeAllocRecording.1) ∧
    ∃ p', delete 3 [5] insertedPager.beginAllocRecording =
        .ok { newRoot := 3, freed := [] } p' ∧ p'.takeAllocRecording.1 = [] := by
  obtain ⟨hins, -, habsent⟩ := edit_conserves_pages sessionRun_inserted.history
    (g := secondGeneration)
    (List.mem_cons_self ..) rfl rfl
  exact ⟨⟨_, _, rfl, hins [2] [8] _ _ rfl⟩, habsent [5] _ rfl⟩

end Edb.BTree
