import Edb.Pager.Invariant

/-!
# The free list on disk

The free set is serialized into a chain of trunk pages. `packTrunks` says which pages become
trunks and what each stores; `TrunkChain` says that a store of frames holds such a chain.
Rebuilding stages the chain of the packed trunks (`rebuildLoop_eq`, `stageTrunks_spec`), and
loading a chain returns what its trunks store (`loadFreeList_of_chain`).
-/

namespace Edb

variable {α : Type}

/-- A trunk page: its id and the free ids it stores. -/
structure Trunk where
  id : Nat
  ids : List Nat
  deriving DecidableEq, Repr

/-- The trunks a pool of free ids is packed into, in the order they are built. -/
def packTrunks : Nat → List Nat → List Trunk
  | 0, _ => []
  | fuel + 1, pool =>
      match pool.getLast? with
      | none => []
      | some container =>
          let rest := pool.dropLast
          let kept := rest.length - min rest.length freelistCapacity
          { id := container, ids := rest.drop kept } :: packTrunks fuel (rest.take kept)

/-- Stage the trunks one after the other, each linking to the one before. -/
def stageTrunks (cache : PageCache α) (head : Nat) : List Trunk → PageCache α × Nat
  | [] => (cache, head)
  | t :: ts =>
      stageTrunks (cache.insert t.id { id := t.id, body := .freelist head t.ids } true) t.id ts

/-- The ids a list of trunks accounts for: the trunks and what they store. -/
def trunkPages (ts : List Trunk) : List Nat := ts.flatMap fun t => t.id :: t.ids

theorem rebuildLoop_eq (fuel : Nat) (pool : List Nat) (acc : Rebuild α) :
    rebuildLoop fuel pool acc = {
      stored := acc.stored ++ (packTrunks fuel pool).flatMap Trunk.ids
      newTrunks := acc.newTrunks ++ (packTrunks fuel pool).map Trunk.id
      head := (stageTrunks acc.cache acc.head (packTrunks fuel pool)).2
      cache := (stageTrunks acc.cache acc.head (packTrunks fuel pool)).1 } := by
  induction fuel generalizing pool acc with
  | zero => simp [rebuildLoop, packTrunks, stageTrunks]
  | succ fuel ih =>
      rw [rebuildLoop, packTrunks]
      cases pool.getLast? with
      | none => simp [stageTrunks]
      | some container =>
          simp only
          rw [ih]
          simp [stageTrunks]

/-- Packing loses no id and duplicates none. -/
theorem packTrunks_perm {fuel : Nat} {pool : List Nat} (h : pool.length ≤ fuel) :
    pool.Perm (trunkPages (packTrunks fuel pool)) := by
  induction fuel generalizing pool with
  | zero =>
      rw [List.length_eq_zero_iff.mp (Nat.le_zero.mp h)]
      exact List.Perm.refl _
  | succ fuel ih =>
      rw [packTrunks]
      cases hlast : pool.getLast? with
      | none =>
          rw [List.getLast?_eq_none_iff.mp hlast]
          exact List.Perm.refl _
      | some container =>
          obtain ⟨rest, rfl⟩ := List.getLast?_eq_some_iff.mp hlast
          simp only [List.dropLast_concat]
          generalize rest.length - min rest.length freelistCapacity = kept
          have hlen : (rest.take kept).length ≤ fuel := by
            rw [List.length_append, List.length_singleton] at h
            rw [List.length_take]
            omega
          have hrest := ih hlen
          rw [List.perm_iff_count] at hrest ⊢
          intro a
          have h₁ := hrest a
          have h₂ : List.count a rest =
              List.count a (rest.take kept) + List.count a (rest.drop kept) := by
            rw [← List.count_append, List.take_append_drop]
          simp only [trunkPages, List.flatMap_cons, List.count_append, List.count_cons,
            List.count_nil] at h₁ ⊢
          omega

/-- What trunks account for: what they store, and the trunks. -/
theorem trunkPages_perm (ts : List Trunk) :
    (trunkPages ts).Perm (ts.flatMap Trunk.ids ++ ts.map Trunk.id) := by
  induction ts with
  | nil => exact List.Perm.refl _
  | cons t ts ih =>
      rw [List.perm_iff_count] at ih ⊢
      intro a
      have := ih a
      simp only [trunkPages, List.flatMap_cons, List.map_cons, List.count_append,
        List.count_cons] at this ⊢
      omega

/-- Packing partitions a pool into the stored ids and the trunks. -/
theorem packTrunks_pages (pool : List Nat) :
    pool.Perm ((packTrunks pool.length pool).flatMap Trunk.ids ++
      (packTrunks pool.length pool).map Trunk.id) :=
  (packTrunks_perm (Nat.le_refl _)).trans (trunkPages_perm _)

theorem packTrunks_subset {pool : List Nat} {id : Nat}
    (h : id ∈ (packTrunks pool.length pool).map Trunk.id) : id ∈ pool :=
  (packTrunks_pages pool).symm.subset (List.mem_append_right _ h)

theorem packTrunks_nodup {pool : List Nat} (h : pool.Nodup) :
    ((packTrunks pool.length pool).map Trunk.id).Nodup :=
  (List.nodup_append.mp ((packTrunks_pages pool).nodup_iff.mp h)).2.1

/-- No trunk lists more pages than fit in it. -/
theorem packTrunks_capacity {fuel : Nat} {pool : List Nat} :
    ∀ t ∈ packTrunks fuel pool, t.ids.length ≤ freelistCapacity := by
  induction fuel generalizing pool with
  | zero => intro t ht; cases ht
  | succ fuel ih =>
      intro t ht
      rw [packTrunks] at ht
      cases hlast : pool.getLast? with
      | none =>
          rw [hlast] at ht
          cases ht
      | some container =>
          rw [hlast] at ht
          rcases List.mem_cons.mp ht with rfl | ht
          · simp only [List.length_drop]
            omega
          · exact ih t ht

/-! ## Chains of trunk pages -/

/-- The frames hold a chain of trunks from `head` on, the last one linking to 0. -/
def TrunkChain (frame : Nat → Option (Frame α)) : Nat → List Trunk → Prop
  | head, [] => head = 0
  | head, t :: ts => head = t.id ∧
      ∃ next, frame t.id = some { id := t.id, body := .freelist next t.ids } ∧
        TrunkChain frame next ts

/-- A chain depends on the frames of its trunks alone. -/
theorem TrunkChain.congr {frame frame' : Nat → Option (Frame α)} {head : Nat} {ts : List Trunk}
    (h : TrunkChain frame head ts) (hf : ∀ t ∈ ts, frame' t.id = frame t.id) :
    TrunkChain frame' head ts := by
  induction ts generalizing head with
  | nil => exact h
  | cons t ts ih =>
      obtain ⟨hhead, next, hframe, hnext⟩ := h
      refine ⟨hhead, next, ?_, ih hnext fun t' ht' => hf t' (List.mem_cons_of_mem _ ht')⟩
      rw [hf t (List.mem_cons_self ..)]
      exact hframe

/-- What staging a list of trunks in front of a chain does to the cache. -/
structure TrunksStaged (store : Nat → Option (Frame α)) (cache : PageCache α)
    (done ts : List Trunk) (r : PageCache α × Nat) : Prop where
  coherent : PageCache.Coherent store r.1.entries
  chain : TrunkChain (PageCache.reads store r.1.entries) r.2 (ts.reverse ++ done)
  reads : ∀ id, id ∉ ts.map Trunk.id →
    PageCache.reads store r.1.entries id = PageCache.reads store cache.entries id
  dirty : ∀ id, PageCache.IsDirty r.1.entries id ↔
    id ∈ ts.map Trunk.id ∨ PageCache.IsDirty cache.entries id
  resident : ∀ id, PageCache.find r.1.entries id ≠ none →
    id ∈ ts.map Trunk.id ∨ PageCache.find cache.entries id ≠ none

/-- Staging writes the trunks as one chain before the pages that are staged already. -/
theorem stageTrunks_spec {store : Nat → Option (Frame α)} (ts : List Trunk) {done : List Trunk}
    {cache : PageCache α} {head : Nat} (hc : PageCache.Coherent store cache.entries)
    (hchain : TrunkChain (PageCache.reads store cache.entries) head done)
    (hnodup : ((ts.reverse ++ done).map Trunk.id).Nodup) :
    TrunksStaged store cache done ts (stageTrunks cache head ts) := by
  induction ts generalizing done cache head with
  | nil =>
      exact ⟨hc, hchain, fun _ _ => rfl, fun id => by simp [stageTrunks],
        fun id h => .inr h⟩
  | cons t ts ih =>
      obtain ⟨hcoh, hreads, hdirty⟩ := PageCache.insert_dirty_spec
        (f := ({ id := t.id, body := .freelist head t.ids } : Frame α)) hc
      have hmap : ((ts.reverse ++ t :: done).map Trunk.id).Nodup := by
        simpa [List.reverse_cons, List.append_assoc] using hnodup
      -- a trunk is written once, so the chain so far reads as before
      have hnot : ∀ t' ∈ done, t.id ≠ t'.id := by
        intro t' ht' heq
        rw [List.map_append, List.map_cons] at hmap
        have h := (List.nodup_append.mp hmap).2.1
        exact (List.nodup_cons.mp h).1 (heq ▸ List.mem_map_of_mem ht')
      have hchain' : TrunkChain (PageCache.reads store (cache.insert t.id
          { id := t.id, body := .freelist head t.ids } true).entries) t.id (t :: done) := by
        refine ⟨rfl, head, ?_, hchain.congr fun t' ht' => ?_⟩
        · exact (hreads t.id).trans (if_pos rfl)
        · exact (hreads t'.id).trans (if_neg (hnot t' ht'))
      have hspec := ih hcoh hchain' hmap
      refine ⟨hspec.coherent, ?_, fun id hid => ?_, fun id => ?_, fun id hid => ?_⟩
      · have := hspec.chain
        rwa [List.append_cons, ← List.reverse_cons] at this
      · rw [List.map_cons, List.mem_cons, not_or] at hid
        rw [stageTrunks, hspec.reads id hid.2]
        exact (hreads id).trans (if_neg fun h => hid.1 h.symm)
      · rw [stageTrunks, hspec.dirty id, hdirty id, List.map_cons, List.mem_cons]
        constructor
        · rintro (h | h | h)
          · exact .inl (.inr h)
          · exact .inl (.inl h.symm)
          · exact .inr h
        · rintro ((h | h) | h)
          · exact .inr (.inl h.symm)
          · exact .inl h
          · exact .inr (.inr h)
      · rcases hspec.resident id hid with h | h
        · exact .inl (List.mem_cons_of_mem _ h)
        · rcases PageCache.resident_insert cache t.id _ true h with h | h
          · exact .inl (h ▸ List.mem_cons_self ..)
          · exact .inr h

/-- Staging a packed pool of distinct pages leaves the chain of its trunks. -/
theorem packTrunks_staged {store : Nat → Option (Frame α)} {cache : PageCache α} {pool : List Nat}
    (hc : PageCache.Coherent store cache.entries) (h : pool.Nodup) :
    TrunksStaged store cache [] (packTrunks pool.length pool)
      (stageTrunks cache 0 (packTrunks pool.length pool)) := by
  refine stageTrunks_spec (packTrunks pool.length pool) hc rfl ?_
  rw [List.append_nil, List.map_reverse]
  exact (List.reverse_perm _).nodup_iff.mpr (packTrunks_nodup h)

namespace Pager

/-- The trunks the free set is packed into, in the order they are built. -/
def packed (p : Pager α) : List Trunk := packTrunks p.freeSet.length p.freeSet

theorem rebuildFreeList_eq (p : Pager α) : p.rebuildFreeList = (p.trunks, { p with
    cache := (stageTrunks p.cache 0 p.packed).1
    metadata := { p.metadata with
      freelistHead := u64ToOpt (stageTrunks p.cache 0 p.packed).2
      freelistLen := (p.packed.flatMap Trunk.ids).length }
    freeSet := p.packed.flatMap Trunk.ids
    trunks := p.packed.map Trunk.id }) := by
  unfold rebuildFreeList packed
  rw [rebuildLoop_eq]
  simp only [List.nil_append]

end Pager

/-! ## Loading -/

/-- The trunks are distinct pages of a file of `pageCount` pages, none over capacity. -/
structure TrunksOk (pageCount : Nat) (ts : List Trunk) : Prop where
  range : ∀ t ∈ ts, firstDataPage ≤ t.id ∧ t.id < pageCount
  capacity : ∀ t ∈ ts, t.ids.length ≤ freelistCapacity
  nodup : (ts.map Trunk.id).Nodup

/-- Loading a chain returns its free pages and its trunks in order. -/
theorem loadFreeLoop_of_chain {i : Image α} {pageCount : Nat} {ts : List Trunk} {head fuel : Nat}
    {free trunks : List Nat} (hchain : TrunkChain i.frameAt head ts)
    (hrange : ∀ t ∈ ts, firstDataPage ≤ t.id ∧ t.id < pageCount)
    (hcap : ∀ t ∈ ts, t.ids.length ≤ freelistCapacity)
    (hnodup : (trunks ++ ts.map Trunk.id).Nodup) (hfuel : ts.length ≤ fuel) :
    loadFreeLoop i pageCount fuel (u64ToOpt head) free trunks =
      .ok (free ++ ts.flatMap Trunk.ids, trunks ++ ts.map Trunk.id) := by
  induction ts generalizing head fuel free trunks with
  | nil =>
      obtain rfl : head = 0 := hchain
      cases fuel <;> simp [loadFreeLoop, u64ToOpt]
  | cons t ts ih =>
      obtain ⟨rfl, next, hframe, hnext⟩ := hchain
      obtain ⟨fuel, rfl⟩ : ∃ f, fuel = f + 1 := ⟨fuel - 1, by simp at hfuel; omega⟩
      obtain ⟨hlo, hhi⟩ := hrange t (List.mem_cons_self ..)
      have hfirst : firstDataPage = 2 := rfl
      have hsome : u64ToOpt t.id = some t.id := if_neg (by omega)
      have hfresh : t.id ∉ trunks := by
        intro hmem
        exact (List.nodup_append.mp hnodup).2.2 t.id hmem t.id (by simp) rfl
      have hread : i.readAt t.id = .ok { id := t.id, body := .freelist next t.ids } :=
        Image.readAt_eq_ok.mpr hframe
      have hcount : ¬ t.ids.length > freelistCapacity :=
        Nat.not_lt.mpr (hcap t (List.mem_cons_self ..))
      rw [hsome, loadFreeLoop, if_neg (by omega), if_neg hfresh, hread]
      simp only [hcount, if_false]
      rw [ih hnext (fun t' ht' => hrange t' (List.mem_cons_of_mem _ ht'))
        (fun t' ht' => hcap t' (List.mem_cons_of_mem _ ht')) (by simpa using hnodup)
        (by simpa using hfuel)]
      simp

/-- Loading a chain returns the ids it stores and its trunks. -/
theorem loadFreeList_of_chain {i : Image α} {m : Meta} {ts : List Trunk} {head : Nat}
    (hhead : m.freelistHead = u64ToOpt head) (hchain : TrunkChain i.frameAt head ts)
    (hok : TrunksOk m.pageCount ts) :
    loadFreeList i m = .ok (ts.flatMap Trunk.ids, ts.map Trunk.id) := by
  have hfuel : ts.length ≤ m.pageCount := by
    have hsub : ts.map Trunk.id ⊆ List.range m.pageCount := by
      intro id hid
      obtain ⟨t, ht, rfl⟩ := List.mem_map.mp hid
      exact List.mem_range.mpr (hok.range t ht).2
    have := (hok.nodup.subperm hsub).length_le
    rwa [List.length_map, List.length_range] at this
  unfold loadFreeList
  rw [hhead, loadFreeLoop_of_chain hchain hok.range hok.capacity (by simpa using hok.nodup) hfuel]
  simp

end Edb
