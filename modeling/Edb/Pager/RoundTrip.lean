import Edb.Pager.Commit

/-!
# Writing the free list and loading it back

Rebuilding the free list asks little of the pager it starts from: distinct free ids that are
pages of the file and no trunks, and a cache that keeps frames under their own page ids
(`PageCache.Filed`). The chain it stages is what loading reads from the file once the dirty pages
are written (`rebuildFreeList_round_trip`).
-/

namespace Edb

variable {α : Type}

/-! ## A cache on its own -/

/-- Each page has one entry, and its frame names the page. -/
structure PageCache.Filed (c : PageCache α) : Prop where
  nodup : (c.entries.map Prod.fst).Nodup
  self : ∀ id e, PageCache.find c.entries id = some e → e.frame.id = id

/-- The frames a cache holds, as a store of their own. -/
def PageCache.held (c : PageCache α) (id : Nat) : Option (Frame α) :=
  (PageCache.find c.entries id).map CacheEntry.frame

theorem PageCache.Filed.coherent {c : PageCache α} (h : c.Filed) :
    PageCache.Coherent c.held c.entries where
  nodup := h.nodup
  self := h.self
  clean := fun id e he _ => by rw [PageCache.held, he]; rfl

/-- A page is flushed exactly if it is dirty, with the frame it reads as. -/
theorem PageCache.mem_dirtyPages_iff {c : PageCache α} (hc : (c.entries.map Prod.fst).Nodup)
    (store : Nat → Option (Frame α)) (id : Nat) (f : Frame α) : (id, f) ∈ c.dirtyPages ↔
      PageCache.IsDirty c.entries id ∧ PageCache.reads store c.entries id = some f := by
  rw [PageCache.mem_dirtyPages hc]
  constructor
  · rintro ⟨e, he, hd, rfl⟩
    refine ⟨⟨e, he, hd⟩, ?_⟩
    unfold PageCache.reads
    rw [he]
  · rintro ⟨⟨e, he, hd⟩, hf⟩
    unfold PageCache.reads at hf
    rw [he] at hf
    exact ⟨e, he, hd, Option.some_inj.mp hf⟩

/-! ## Writing pages to a file of any length -/

/-- Writes leave the pages they do not aim at. -/
theorem frameAt_writes_ne (i : Image α) (l : List (Nat × Frame α)) {id : Nat}
    (hid : id ∉ l.map Prod.fst) (hlt : id < i.len) :
    ((l.map fun d => Write.page d.1 d.2).foldl Image.apply i).frameAt id = i.frameAt id := by
  induction l generalizing i with
  | nil => rfl
  | cons d l ih =>
      rw [List.map_cons, List.mem_cons, not_or] at hid
      have hlen : id < (i.apply (.page d.1 d.2)).len := by
        rw [Image.len_apply_page]
        omega
      refine (ih (i.apply (.page d.1 d.2)) hid.2 hlen).trans ?_
      exact Image.frameAt_page_ne i d.2 (fun h => hid.1 h.symm) hlt

/-- A written page reads as it was written, whatever else is. -/
theorem frameAt_written (i : Image α) {l : List (Nat × Frame α)}
    (hnodup : (l.map Prod.fst).Nodup) {f : Frame α} (hf : (f.id, f) ∈ l) :
    ((l.map fun d => Write.page d.1 d.2).foldl Image.apply i).frameAt f.id = some f := by
  induction l generalizing i with
  | nil => cases hf
  | cons d l ih =>
      rw [List.map_cons, List.nodup_cons] at hnodup
      rcases List.mem_cons.mp hf with rfl | hf
      · refine (frameAt_writes_ne _ l hnodup.1 ?_).trans (Image.frameAt_page_self i)
        rw [Image.len_apply_page]
        omega
      · exact ih (i.apply (.page d.1 d.2)) hnodup.2 hf

namespace Pager

/-- Extend the file to the allocation mark and write the dirty pages. -/
def dirtyWrites (p : Pager α) : List (Write α) :=
  (if p.backend.current.len < p.metadata.pageCount then [.resize p.metadata.pageCount] else []) ++
    p.cache.dirtyPages.map fun d => .page d.1 d.2

/-- The file once the dirty pages are in it. -/
def flushDirty (p : Pager α) : Image α := p.dirtyWrites.foldl Image.apply p.backend.current

/-- A flush writes every dirty page in its place. -/
theorem flushDirty_frameAt {p : Pager α} (hp : (p.cache.entries.map Prod.fst).Nodup) {f : Frame α}
    (hf : (f.id, f) ∈ p.cache.dirtyPages) : p.flushDirty.frameAt f.id = some f := by
  unfold flushDirty dirtyWrites
  rw [List.foldl_append]
  exact frameAt_written _ (PageCache.dirtyPages_nodup hp) hf

/-! ## Rebuilding -/

theorem optToU64_u64ToOpt (head : Nat) : optToU64 (u64ToOpt head) = head := by
  unfold u64ToOpt optToU64
  split
  next h => rw [h]; rfl
  next => rfl

/-- **The free list survives serialization.** The free set is split into stored ids and trunks;
the trunks form a chain without repetition, none over capacity, no earlier trunk is staged
differently, and loading from the flushed file returns the stored ids and the trunks. -/
theorem rebuildFreeList_round_trip {p p' : Pager α} {dead : List Nat} (hcache : p.cache.Filed)
    (hnodup : p.freeSet.Nodup)
    (hrange : ∀ id ∈ p.freeSet, firstDataPage ≤ id ∧ id < p.metadata.pageCount)
    (hdisjoint : ∀ id ∈ p.freeSet, id ∉ p.trunks) (hp' : p.rebuildFreeList = (dead, p')) :
    dead = p.trunks ∧ p.freeSet.Perm (p'.freeSet ++ p'.trunks) ∧
      p'.metadata.freelistLen = p'.freeSet.length ∧
      (∀ id ∈ p.trunks, id ∉ p'.trunks ∧
        ∀ f, (id, f) ∈ p'.cache.dirtyPages ↔ (id, f) ∈ p.cache.dirtyPages) ∧
      ∃ chain : List Trunk,
        TrunkChain p'.flushDirty.frameAt (optToU64 p'.metadata.freelistHead) chain ∧
        (chain.map Trunk.id).Nodup ∧ (∀ t ∈ chain, t.ids.length ≤ 508) ∧
        (chain.map Trunk.id).Perm p'.trunks ∧ (chain.flatMap Trunk.ids).Perm p'.freeSet ∧
        loadFreeList p'.flushDirty p'.metadata =
          .ok (chain.flatMap Trunk.ids, chain.map Trunk.id) := by
  have hstaged : TrunksStaged p.cache.held p.cache [] p.packed (stageTrunks p.cache 0 p.packed) :=
    packTrunks_staged hcache.coherent hnodup
  rw [rebuildFreeList_eq] at hp'
  obtain ⟨rfl, rfl⟩ := Prod.mk.inj hp'
  have hkeys := hstaged.coherent.nodup
  refine ⟨rfl, packTrunks_pages p.freeSet, rfl, fun id hid => ?_, p.packed.reverse, ?_⟩
  -- the old trunks are disjoint from the new ones, so their frames are as they were
  · have hfresh : id ∉ p.packed.map Trunk.id :=
      fun h => hdisjoint id (packTrunks_subset h) hid
    refine ⟨hfresh, fun f => ?_⟩
    rw [PageCache.mem_dirtyPages_iff hkeys p.cache.held,
      PageCache.mem_dirtyPages_iff hcache.nodup p.cache.held, hstaged.reads id hfresh,
      hstaged.dirty id]
    simp only [hfresh, false_or]
  · have htrunks : (p.packed.reverse.map Trunk.id).Perm (p.packed.map Trunk.id) :=
      (List.reverse_perm _).map _
    have hdistinct := htrunks.nodup_iff.mpr (packTrunks_nodup hnodup)
    have hcapacity : ∀ t ∈ p.packed.reverse, t.ids.length ≤ freelistCapacity :=
      fun t ht => packTrunks_capacity t (List.mem_reverse.mp ht)
    have hchain := hstaged.chain
    rw [List.append_nil] at hchain
    -- every trunk staged is dirty, so the flush writes the chain out as it stands in the cache
    have hflushed : TrunkChain (flushDirty { p with
        cache := (stageTrunks p.cache 0 p.packed).1
        metadata := { p.metadata with
          freelistHead := u64ToOpt (stageTrunks p.cache 0 p.packed).2
          freelistLen := (p.packed.flatMap Trunk.ids).length }
        freeSet := p.packed.flatMap Trunk.ids
        trunks := p.packed.map Trunk.id }).frameAt (stageTrunks p.cache 0 p.packed).2
        p.packed.reverse := by
      refine hchain.congr fun t ht => ?_
      have hid : t.id ∈ p.packed.map Trunk.id :=
        List.mem_map_of_mem (List.mem_reverse.mp ht)
      obtain ⟨e, he, hd⟩ := (hstaged.dirty t.id).mpr (.inl hid)
      have hreads : PageCache.reads p.cache.held (stageTrunks p.cache 0 p.packed).1.entries t.id =
          some e.frame := by
        unfold PageCache.reads
        rw [he]
      have hself : e.frame.id = t.id := hstaged.coherent.self t.id e he
      have hmem : (e.frame.id, e.frame) ∈ (stageTrunks p.cache 0 p.packed).1.dirtyPages := by
        rw [PageCache.mem_dirtyPages_iff hkeys p.cache.held, hself]
        exact ⟨⟨e, he, hd⟩, hreads⟩
      rw [hreads, ← hself]
      exact flushDirty_frameAt hkeys hmem
    refine ⟨?_, hdistinct, hcapacity, htrunks, (List.reverse_perm _).flatMap_right _,
      loadFreeList_of_chain rfl hflushed ⟨fun t ht => ?_, hcapacity, hdistinct⟩⟩
    · rw [optToU64_u64ToOpt]
      exact hflushed
    · exact hrange t.id (packTrunks_subset (List.mem_map_of_mem (List.mem_reverse.mp ht)))

/-- Pages 2 to 4 are free, page 5 is the trunk of the committed chain. -/
def threeFree : Pager Unit := { create 0 with
  metadata := { Meta.initial with pageCount := 6, freelistHead := some 5 }
  freeSet := [2, 3, 4]
  trunks := [5] }

theorem rebuildFreeList_round_trip_threeFree : ∃ free trunks,
    loadFreeList threeFree.rebuildFreeList.2.flushDirty threeFree.rebuildFreeList.2.metadata =
      .ok (free, trunks) ∧ free.Perm [2, 3] ∧ trunks.Perm [4] := by
  obtain ⟨-, -, -, -, chain, -, -, -, htrunks, hfree, hload⟩ :=
    rebuildFreeList_round_trip (p := threeFree) ⟨List.nodup_nil, fun _ _ h => nomatch h⟩ (by decide)
      (by decide) (by decide) rfl
  exact ⟨_, _, hload, hfree, htrunks⟩

end Pager

end Edb
