import Edb.BTree.Scan
import Edb.Pager.Run

/-!
# The B+tree refines an ordered map

A session creates a tree and then inserts and deletes, each time at the root the previous call
returned, while the pager is also used otherwise: pages are read, handed out, written, returned,
and commits are made. Every call that returns leaves a new `Generation`: its root, the map it
stands for, and its pages. A generation stays intact until one of its pages is freed or rewritten.

Every intact generation, not only the latest, answers lookups and scans as its map does
(`generation_refines_map`) and passes the structural check (`generation_validates`).
-/

namespace Edb.BTree

open Edb.Lib
open BTree.Tree (leaf node WF RootWF Pre)

/-- One root of a session, with what is known of it. -/
structure Generation where
  root : Nat
  /-- The bindings at that time. -/
  map : List Entry
  pages : List Nat
  /-- None of the pages was freed or rewritten since. -/
  intact : Bool

/-- The page was freed or rewritten. -/
def Generation.lose (g : Generation) (id : Nat) : Generation :=
  { g with intact := g.intact && !(g.pages.contains id) }

/-- The pages of the tree at `root`, as the walk over them finds them. -/
def pagesFrom (root : Nat) (p : Pager Node) : List Nat :=
  match pages root p with
  | .ok ids _ => ids
  | .error _ _ => []

/-- The generation a call leaves that returned `root` and a pager. -/
def Generation.fresh (root : Nat) (map : List Entry) (p : Pager Node) : Generation :=
  { root := root, map := map, pages := pagesFrom root p, intact := true }

/-- A pager with the generations of one tree, the latest first. -/
structure Session where
  pager : Pager Node
  generations : List Generation

/-- One step of a session. -/
inductive SessionStep : Session → Session → Prop
  | create {p p' : Pager Node} {root : Nat} : create p = .ok root p' →
      SessionStep ⟨p, []⟩ ⟨p', [.fresh root [] p']⟩
  | insert {p p' : Pager Node} {g : Generation} {gs : List Generation} {key value : Bytes}
      {e : Edit} : g.intact = true → insert g.root key value p = .ok e p' →
      SessionStep ⟨p, g :: gs⟩
        ⟨p', .fresh e.newRoot (OrdMap.insert key value g.map) p' :: g :: gs⟩
  | delete {p p' : Pager Node} {g : Generation} {gs : List Generation} {key : Bytes} {e : Edit} :
      g.intact = true → delete g.root key p = .ok e p' →
      SessionStep ⟨p, g :: gs⟩ ⟨p', .fresh e.newRoot (OrdMap.erase key g.map) p' :: g :: gs⟩
  | read {p : Pager Node} {gs : List Generation} (id : Nat) :
      SessionStep ⟨p, gs⟩ ⟨Lib.endState (Pager.readPage id p), gs⟩
  | alloc {p p' : Pager Node} {gs : List Generation} {id : Nat} :
      Pager.alloc p = .ok id p' → SessionStep ⟨p, gs⟩ ⟨p', gs⟩
  | writePage {p p' : Pager Node} {gs : List Generation} {id : Nat} {n : Node} : p.Owned id →
      Pager.writePage id n p = .ok () p' → SessionStep ⟨p, gs⟩ ⟨p', gs.map (·.lose id)⟩
  | free {p p' : Pager Node} {gs : List Generation} {id : Nat} : p.Owned id →
      Pager.free id p = .ok () p' → SessionStep ⟨p, gs⟩ ⟨p', gs.map (·.lose id)⟩
  | commit {p p' : Pager Node} {gs : List Generation} :
      Pager.commit p = .ok () p' → SessionStep ⟨p, gs⟩ ⟨p', gs⟩

/-- The sessions reachable from a fresh database. -/
inductive SessionRun : Session → Prop
  | start (cacheBytes : Nat) : SessionRun ⟨Pager.create cacheBytes, []⟩
  | step {s s' : Session} : SessionRun s → SessionStep s s' → SessionRun s'

/-! ## The invariant -/

/-- The pager holds a tree with the generation's root, bindings and pages. -/
def Generation.HeldIn (g : Generation) (p : Pager Node) : Prop :=
  ∃ t : PageTree, t.root = g.root ∧ t.entries = g.map ∧ t.pages.Perm g.pages ∧ Holds p t

structure SessionOk (s : Session) : Prop where
  tracks : ∃ v : Version Node, (∀ id, ¬ v.live id) ∧ Pager.Tracks s.pager v
  root : s.pager.metadata.catalogRoot = none
  held : ∀ g ∈ s.generations, g.intact = true → g.HeldIn s.pager

variable {p p' : Pager Node} {t : PageTree} {new : List Nat}

theorem Generation.HeldIn.grows {g : Generation} (h : g.HeldIn p) (hg : Pager.Grows p p' new) :
    g.HeldIn p' := by
  obtain ⟨t, hroot, hmap, hpages, hheld⟩ := h
  exact ⟨t, hroot, hmap, hpages, hheld.grows hg⟩

/-- A tree stays held while its pages read the same and stay owned. -/
theorem Holds.frame (h : Holds p t) (hview : ∀ id ∈ t.pages, p'.view id = p.view id)
    (howned : ∀ id ∈ t.pages, p'.Owned id) : Holds p' t :=
  ⟨h.held.frame hview howned, h.wf, h.nodup⟩

/-- A generation is held while its pages are kept and owned. -/
theorem Generation.HeldIn.frame {g : Generation} (h : g.HeldIn p)
    (hview : ∀ id ∈ g.pages, p'.view id = p.view id)
    (howned : ∀ id ∈ g.pages, p.Owned id → p'.Owned id) : g.HeldIn p' := by
  obtain ⟨t, hroot, hmap, hpages, hheld⟩ := h
  exact ⟨t, hroot, hmap, hpages, hheld.frame (fun id hid => hview id (hpages.subset hid))
    (fun id hid => howned id (hpages.subset hid) (hheld.owned id hid))⟩

theorem Generation.lose_intact {g : Generation} {id : Nat} (h : (g.lose id).intact = true) :
    g.intact = true ∧ id ∉ g.pages := by
  unfold lose at h
  simpa using h

/-- The tree an operation built is held, its pages being new or taken over. -/
theorem EditHeld.holds {keeps : Prop} {e : Edit} {s : Shape.Any} (hp : p.Ok) (ht : Holds p t)
    (hg : Pager.Grows p p' new) (h : EditHeld keeps p' t e s new) (hwf : s.2.RootWF) :
    ∃ t' : PageTree, t'.root = e.newRoot ∧ t'.shape = s ∧ Holds p' t' ∧
      (t'.pages ++ e.freed).Perm (t.pages ++ new) ∧ (t'.pages ++ e.freed).Nodup := by
  obtain ⟨t', hroot, rfl, hheld, hperm⟩ := h.tree
  have hall : (t.pages ++ new).Nodup := by
    refine List.nodup_append.mpr ⟨ht.nodup, (List.nodup_append.mp (hg.nodup hp)).2.1, ?_⟩
    intro a ha b hb hab
    subst hab
    exact hg.fresh hb (ht.owned a ha)
  have hnodup := hperm.nodup_iff.mpr hall
  exact ⟨t', hroot, rfl, ⟨hheld, Tree.rootWF_erase.mp hwf, (List.nodup_append.mp hnodup).1⟩, hperm,
    hnodup⟩

theorem PageTree.entries_shape (t : PageTree) : t.shape.2.entries = t.entries := t.2.entries_erase

/-- A successful insert over a held tree. -/
theorem insert_holds {key value : Bytes} {e : Edit} (hp : p.Ok) (ht : Holds p t)
    (hrun : insert t.root key value p = .ok e p') : ∃ new, Pager.Grows p p' new ∧
      ∃ t' : PageTree, t'.root = e.newRoot ∧
        t'.entries = OrdMap.insert key value t.entries ∧ Holds p' t' ∧
        (t'.pages ++ e.freed).Perm (t.pages ++ new) := by
  have hsim := insert_sim key value hp ht
  unfold Simulates at hsim
  cases hs : Shape.insert t.shape key value with
  | error err =>
      rw [hs] at hsim
      obtain ⟨_, _, hrun', -⟩ := hsim
      rw [hrun'] at hrun
      cases hrun
  | ok s =>
      rw [hs] at hsim
      obtain ⟨_, _, new, hrun', hg, hheld⟩ := hsim
      rw [hrun'] at hrun
      cases hrun
      obtain ⟨hwf, hes⟩ := Shape.insert_spec (Tree.rootWF_erase.mpr ht.wf) hs
      obtain ⟨t', hroot, rfl, hholds, hperm, -⟩ := hheld.holds hp ht hg hwf
      refine ⟨new, hg, t', hroot, ?_, hholds, hperm⟩
      rw [← t'.entries_shape, hes, t.entries_shape]

/-- A successful delete over a held tree. -/
theorem delete_holds {key : Bytes} {e : Edit} (hp : p.Ok) (ht : Holds p t)
    (hrun : delete t.root key p = .ok e p') : ∃ new, Pager.Grows p p' new ∧
      ∃ t' : PageTree, t'.root = e.newRoot ∧ t'.entries = OrdMap.erase key t.entries ∧
        Holds p' t' ∧ (t'.pages ++ e.freed).Perm (t.pages ++ new) := by
  have hsim := delete_sim key hp ht
  unfold Simulates at hsim
  cases hs : Shape.delete t.shape key with
  | error err =>
      rw [hs] at hsim
      obtain ⟨_, _, hrun', -⟩ := hsim
      rw [hrun'] at hrun
      cases hrun
  | ok s =>
      rw [hs] at hsim
      obtain ⟨_, _, new, hrun', hg, hheld⟩ := hsim
      rw [hrun'] at hrun
      cases hrun
      obtain ⟨hwf, hes⟩ := Shape.delete_spec (Tree.rootWF_erase.mpr ht.wf) hs
      obtain ⟨t', hroot, rfl, hholds, hperm, -⟩ := hheld.holds hp ht hg hwf
      refine ⟨new, hg, t', hroot, ?_, hholds, hperm⟩
      rw [← t'.entries_shape, hes, t.entries_shape]

/-- A created tree is the empty one, on one new page. -/
theorem create_spec (hp : p.Ok) : ∃ root p', create p = .ok root p' ∧
    Pager.Grows p p' [root] ∧ Holds p' ⟨0, leaf root []⟩ := by
  obtain ⟨id, p₁, hrun, hg, hview⟩ :=
    (writeNode_spec hp Node.emptyLeaf).1 (show Node.emptyLeaf.encodedLen ≤ cap by decide)
  refine ⟨id, p₁, hrun, hg, ⟨⟨hview, hg.owned_of_new hp (List.mem_singleton.mpr rfl)⟩, ?_,
    List.nodup_singleton id⟩⟩
  exact ⟨Tree.pre_leaf.mpr ⟨OrdMap.sorted_nil, by simp⟩,
    show (leaf () [] : Shape 0).size ≤ cap by decide, fun h => absurd rfl h⟩

/-- A generation just made is held. -/
theorem Generation.fresh_heldIn {root : Nat} {map : List Entry} (hp : p.Ok) (ht : Holds p t)
    (hroot : t.root = root) (hmap : t.entries = map) : (fresh root map p).HeldIn p := by
  obtain ⟨l, q, hrun, hperm, -⟩ := pages_spec hp ht
  refine ⟨t, hroot, hmap, ?_, ht⟩
  change t.pages.Perm (pagesFrom root p)
  rw [pagesFrom, ← hroot, hrun]
  exact hperm.symm

/-! ## One step, and runs -/

/-- Pages handed out leave every generation held. -/
theorem SessionOk.grows {gs : List Generation} (h : SessionOk ⟨p, gs⟩)
    (hg : Pager.Grows p p' new) : SessionOk ⟨p', gs⟩ := by
  obtain ⟨⟨v, hv, htracks⟩, hroot, hheld⟩ := h
  refine ⟨⟨v, hv, htracks.grows hg⟩, ?_, fun g hgm hi => (hheld g hgm hi).grows hg⟩
  change p'.metadata.catalogRoot = none
  rw [hg.header]
  exact hroot

/-- A new generation joins those that are still intact. -/
theorem SessionOk.push {gs : List Generation} {g : Generation} (h : SessionOk ⟨p, gs⟩)
    (hg : g.HeldIn p) : SessionOk ⟨p, g :: gs⟩ := by
  refine ⟨h.tracks, h.root, fun g' hg' hi => ?_⟩
  rcases List.mem_cons.mp hg' with rfl | hg'
  · exact hg
  · exact h.held g' hg' hi

/-- A page given up: the generations that used it are no longer intact. -/
theorem SessionOk.lose {gs : List Generation} {id : Nat} (h : SessionOk ⟨p, gs⟩)
    {v : Version Node} (hv : ∀ id, ¬ v.live id) (htracks : Pager.Tracks p' v)
    (hroot : p'.metadata.catalogRoot = none)
    (hview : ∀ id', id' ≠ id → p'.view id' = p.view id')
    (howned : ∀ id', id' ≠ id → p.Owned id' → p'.Owned id') :
    SessionOk ⟨p', gs.map (·.lose id)⟩ := by
  refine ⟨⟨v, hv, htracks⟩, hroot, fun g hg hi => ?_⟩
  obtain ⟨g₀, hg₀, rfl⟩ := List.mem_map.mp hg
  obtain ⟨hi₀, hnot⟩ := Generation.lose_intact hi
  have hne : ∀ id' ∈ g₀.pages, id' ≠ id := fun id' hid' heq => hnot (heq ▸ hid')
  exact Generation.HeldIn.frame (g := g₀) (h.held g₀ hg₀ hi₀)
    (fun id' hid' => hview id' (hne id' hid')) (fun id' hid' => howned id' (hne id' hid'))

/-- A step keeps every generation that is still intact. -/
theorem SessionStep.ok {s s' : Session} (hstep : SessionStep s s') (h : SessionOk s) :
    SessionOk s' := by
  obtain ⟨v, hv, htracks⟩ := h.tracks
  have hp := htracks.ok
  cases hstep with
  | create hcreate =>
      obtain ⟨root, p₁, hrun, hg, hholds⟩ := create_spec hp
      rw [hrun] at hcreate
      cases hcreate
      exact (h.grows hg).push (Generation.fresh_heldIn hg.ok hholds rfl rfl)
  | @insert p p₁ g gs key value e hi hrun =>
      -- the edit writes fresh pages only, so every older generation still holds its tree
      obtain ⟨t, hroot, hmap, -, ht⟩ := h.held g (List.mem_cons_self ..) hi
      rw [← hroot] at hrun
      obtain ⟨new, hg, t', hroot', hmap', ht', -⟩ := insert_holds hp ht hrun
      rw [hmap] at hmap'
      exact (h.grows hg).push (Generation.fresh_heldIn hg.ok ht' hroot' hmap')
  | @delete p p₁ g gs key e hi hrun =>
      obtain ⟨t, hroot, hmap, -, ht⟩ := h.held g (List.mem_cons_self ..) hi
      rw [← hroot] at hrun
      obtain ⟨new, hg, t', hroot', hmap', ht', -⟩ := delete_holds hp ht hrun
      rw [hmap] at hmap'
      exact (h.grows hg).push (Generation.fresh_heldIn hg.ok ht' hroot' hmap')
  | read id => exact h.grows (Pager.readPage_spec hp id).2.grows
  | alloc halloc =>
      obtain ⟨id, p₁, hrun, hg, -⟩ := Pager.alloc_spec hp
      rw [hrun] at halloc
      cases halloc
      exact h.grows hg
  | @writePage p p₁ gs id n howned hwrite =>
      -- the client may overwrite a page it owns: the generations that hold it are given up
      by_cases hlen : Payload.len n ≤ pagePayloadSize
      · obtain ⟨p₂, hrun, hs⟩ := Pager.writePage_spec hp howned.1 howned.2.1 hlen
        rw [hrun] at hwrite
        cases hwrite
        obtain ⟨c, hc⟩ := hs.same
        refine h.lose hv (htracks.stage hs howned (hv id)) (by rw [hc]; exact h.root)
          (fun id' hne => ?_) fun id' _ ho => ?_
        · rw [hs.view id', if_neg (Ne.symm hne)]
        · rw [hc]
          exact ho
      · rw [Pager.writePage_eq howned.1 howned.2.1, if_pos (Nat.lt_of_not_le hlen)] at hwrite
        cases hwrite
  | @free p p₁ gs id howned hfree =>
      rw [Pager.free_eq hp.loads howned.1 howned.2.1] at hfree
      cases hfree
      refine h.lose hv (htracks.free howned (hv id)) h.root (fun id' _ => rfl) ?_
      rintro id' hne ⟨hlo, hhi, hf, ht⟩
      refine ⟨hlo, hhi, fun hmem => ?_, ht⟩
      rcases List.mem_append.mp hmem with hmem | hmem
      · exact hf hmem
      · exact hne (List.mem_singleton.mp hmem)
  | @commit p p₁ gs hcommit =>
      obtain ⟨hrun, hc, htracks'⟩ := htracks.commit (fun _ => False)
        (fun _ hf => hf.elim) (by rw [show p.metadata.catalogRoot = none from h.root]; simp)
      rw [hrun] at hcommit
      cases hcommit
      -- a commit leaves every page of every generation as it is
      refine ⟨⟨_, fun _ hf => hf, htracks'⟩, hc.root.trans h.root, fun g hg hi => ?_⟩
      obtain ⟨t, hroot, hmap, hpages, ht⟩ := h.held g hg hi
      exact ⟨t, hroot, hmap, hpages, ht.frame (fun id hid => hc.view id (ht.owned id hid))
        fun id hid => hc.owned_iff.mpr (ht.owned id hid)⟩

/-- In every session the intact generations are held. -/
theorem SessionRun.ok {s : Session} (hrun : SessionRun s) : SessionOk s := by
  induction hrun with
  | start cacheBytes =>
      exact ⟨⟨Version.initial, fun _ hf => hf, Pager.tracks_create cacheBytes⟩, rfl,
        (fun _ hg => nomatch hg)⟩
  | step _ hstep ih => exact hstep.ok ih

/-! ## Refinement -/

/-- **Refinement.** Every intact generation of a session answers lookups with its map's values,
and a full scan of it returns the map's bindings in strictly ascending key order. -/
theorem generation_refines_map {s : Session} (hrun : SessionRun s) {g : Generation}
    (hg : g ∈ s.generations) (hi : g.intact = true) :
    (∀ key, ∃ p', lookup g.root key s.pager = .ok (OrdMap.find key g.map) p') ∧
      (∃ p', range g.root none none s.pager = .ok g.map p') ∧ OrdMap.Sorted g.map := by
  have hok := hrun.ok
  obtain ⟨v, -, htracks⟩ := hok.tracks
  obtain ⟨t, hroot, hmap, -, ht⟩ := hok.held g hg hi
  refine ⟨fun key => ?_, ?_, hmap ▸ ht.wf.pre.entries_sorted.1⟩
  · obtain ⟨p', hlookup, -⟩ := lookup_spec htracks.ok ht key
    exact ⟨p', by rw [← hroot, ← hmap]; exact hlookup⟩
  · obtain ⟨p', hrange, -⟩ := range_spec htracks.ok ht none none
    have hall : t.entries.filter (fun e => inBounds none none e.1) = t.entries :=
      List.filter_eq_self.mpr fun _ _ => rfl
    rw [hall, hroot, hmap] at hrange
    exact ⟨p', hrange⟩

/-- A database with an empty tree at page 2. -/
def createdPager : Pager Node := endState (create (Pager.create 0))

/-- The same after a first insert, which put the tree at page 3. -/
def insertedPager : Pager Node := endState (insert 2 [1] [7] createdPager)

def firstGeneration : Generation := .fresh 2 [] createdPager

def secondGeneration : Generation := .fresh 3 [([1], [7])] insertedPager

theorem sessionRun_inserted :
    SessionRun ⟨insertedPager, [secondGeneration, firstGeneration]⟩ := by
  have hcreate : SessionStep ⟨Pager.create 0, []⟩ ⟨createdPager, [firstGeneration]⟩ :=
    .create rfl
  have hinsert : SessionStep ⟨createdPager, [firstGeneration]⟩
      ⟨insertedPager, [secondGeneration, firstGeneration]⟩ :=
    SessionStep.insert (g := firstGeneration) (e := { newRoot := 3, freed := [2] }) rfl
      (show insert 2 [1] [7] createdPager = _ from rfl)
  exact .step (.step (.start 0) hcreate) hinsert

/-- After the insert both the new root and the old one answer for their own bindings. -/
theorem generation_refines_map_inserted :
    (∃ p', lookup 3 [1] insertedPager = .ok (some [7]) p') ∧
      (∃ p', range 3 none none insertedPager = .ok [([1], [7])] p') ∧
      ∃ p', lookup 2 [1] insertedPager = .ok none p' := by
  have hnew := generation_refines_map sessionRun_inserted (g := secondGeneration)
    (List.mem_cons_self ..) rfl
  have hold := generation_refines_map sessionRun_inserted (g := firstGeneration)
    (List.mem_cons_of_mem _ (List.mem_cons_self ..)) rfl
  exact ⟨hnew.1 [1], hnew.2.1, hold.1 [1]⟩

/-- **Structure.** The structural check accepts every intact generation of a session: its nodes
are those of a tree whose leaves are all at one depth. -/
theorem generation_validates {s : Session} (hrun : SessionRun s) {g : Generation}
    (hg : g ∈ s.generations) (hi : g.intact = true) :
    ∃ stats p', validate g.root s.pager = .ok stats p' ∧
      SoundAt s.pager true none none stats.height g.root := by
  have hok := hrun.ok
  obtain ⟨v, -, htracks⟩ := hok.tracks
  obtain ⟨t, hroot, -, -, ht⟩ := hok.held g hg hi
  obtain ⟨p', hvalidate, -⟩ := validate_spec htracks.ok ht
  rw [hroot] at hvalidate
  refine ⟨_, p', hvalidate, ?_⟩
  rw [← hroot]
  exact ht.held.soundAt ht.wf.pre ht.wf.size fun hh => ht.wf.full (by simpa using hh)

theorem generation_validates_inserted : ∃ stats p', validate 3 insertedPager = .ok stats p' ∧
    SoundAt insertedPager true none none stats.height 3 :=
  generation_validates sessionRun_inserted (g := secondGeneration) (List.mem_cons_self ..) rfl

end Edb.BTree
