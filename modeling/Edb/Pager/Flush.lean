import Edb.Pager.Run

/-!
# Reading while a commit flushes

The I/O of a commit is done with the lock released, so pages are read between any two of its
operations. `Flushing p k q`: a commit begun at `p` has done `k` of its I/O operations, and pages
may have been read meanwhile. What the caller owns reads the same throughout, and when the I/O is
done the commit ends as if nothing had been read beside it, up to the cache (`Flushing.finish`).
-/

namespace Edb

variable {α : Type} {p q q' : Pager α} {v : Version α}

namespace Pager

/-- Another backend with the same frames on the clean pages of the file. -/
theorem Ok.withBackend (hq : q.Ok) (hloaded : q.freeLoaded = true) {b : Backend α}
    (hb : ∀ id, firstDataPage ≤ id → id < q.metadata.pageCount → ¬ q.IsDirty id →
      b.current.frameAt id = q.backend.current.frameAt id) :
    Ok { q with backend := b } ∧ ∀ id, firstDataPage ≤ id → id < q.metadata.pageCount →
      view { q with backend := b } id = q.view id := by
  refine ⟨⟨fun h => ?_, ?_, ?_, hq.count, ⟨hq.coherent.nodup, hq.coherent.self, ?_⟩,
    hq.resident⟩, fun id hlo hhi => ?_⟩
  · change q.freeLoaded = false at h
    rw [hloaded] at h
    cases h
  · have hlists : lists { q with backend := b } = q.lists := by
      unfold lists
      rw [if_pos hloaded, if_pos hloaded]
    unfold frees trunkIds
    rw [hlists]
    exact hq.nodup
  · have hlists : lists { q with backend := b } = q.lists := by
      unfold lists
      rw [if_pos hloaded, if_pos hloaded]
    unfold frees trunkIds
    rw [hlists]
    exact hq.range
  -- a clean entry has the frame of the file, which is the same in both
  · intro id e he hclean
    obtain ⟨hlo, hhi⟩ := hq.resident id e he
    change b.current.frameAt id = some e.frame
    rw [hb id hlo hhi, hq.coherent.clean id e he hclean]
    rintro ⟨e', he', hd⟩
    rw [he] at he'
    cases he'
    rw [hclean] at hd
    cases hd
  · change PageCache.reads b.current.frameAt q.cache.entries id =
      PageCache.reads q.backend.current.frameAt q.cache.entries id
    unfold PageCache.reads
    cases hfind : PageCache.find q.cache.entries id with
    | some e => rfl
    | none =>
        refine hb id hlo hhi ?_
        rintro ⟨e, he, -⟩
        rw [hfind] at he
        cases he

/-- The rebuilt pager is in order: the superseded trunks are in none of its lists. -/
theorem rebuilt_ok (hp : p.Ok) : p.rebuilt.Ok := by
  have hperm := p.frees_perm
  have hlists : p.rebuilt.lists = (p.nextTrunks.flatMap Trunk.ids, p.nextTrunks.map Trunk.id) := by
    unfold lists
    rw [rebuilt_eq]
    rfl
  have hcount : p.rebuilt.metadata.pageCount = p.metadata.pageCount := by rw [rebuilt_eq]
  refine ⟨fun h => ?_, ?_, ?_, ?_, ?_, ?_⟩
  · rw [rebuilt_eq] at h
    cases h
  · unfold frees trunkIds
    rw [hlists]
    exact hperm.nodup_iff.mp hp.frees_nodup
  · intro id hid
    unfold frees trunkIds at hid
    rw [hlists] at hid
    rw [hcount]
    exact hp.range id (List.mem_append_left _ (hperm.symm.subset hid))
  · rw [hcount]
    exact hp.count
  · rw [rebuilt_backend]
    exact rebuilt_coherent hp
  · intro id e he
    rw [hcount]
    exact rebuilt_resident hp (by rw [he]; exact Option.some_ne_none _)

/-- The backend after `k` I/O operations of the commit. -/
def flushedTo (p : Pager α) (k : Nat) : Backend α :=
  (p.plan.io.take k).foldl IoOp.run p.rebuilt.backend

/-- Flushing some of the data pages leaves the clean pages as they were. -/
theorem frameAt_dataWrites (hp : p.Ok) (k : Nat) {id : Nat} (hid : ¬ p.rebuilt.IsDirty id) :
    ((p.dataWrites.take k).foldl Image.apply p.backend.current).frameAt id =
      p.backend.current.frameAt id := by
  have hcoh := rebuilt_coherent hp
  -- pages written into a file that already has all of them
  have hpages : ∀ (g : Image α) (j : Nat), p.metadata.pageCount ≤ g.len →
      (((p.rebuilt.cache.dirtyPages.map fun d => Write.page d.1 d.2).take j).foldl
        Image.apply g).frameAt id = g.frameAt id := by
    intro g j hlen
    have hsub : ∀ d ∈ p.rebuilt.cache.dirtyPages.take j, d ∈ p.rebuilt.cache.dirtyPages :=
      fun d hd => List.mem_of_mem_take hd
    rw [← List.map_take]
    refine (frameAt_writes g (p.rebuilt.cache.dirtyPages.take j)
      (fun d hd => (mem_dirtyPages_rebuilt hp (hsub d hd)).2.2.1)
      (fun d hd => lt_of_lt_of_le (mem_dirtyPages_rebuilt hp (hsub d hd)).2.1.2 hlen) ?_).2.2 id ?_
    · rw [List.map_take]
      exact (PageCache.dirtyPages_nodup hcoh.nodup).sublist (List.take_sublist ..)
    · intro hmem
      obtain ⟨d, hd, rfl⟩ := List.mem_map.mp hmem
      obtain ⟨e, he, hdirty, -⟩ := (PageCache.mem_dirtyPages hcoh.nodup d.1 d.2).mp (hsub d hd)
      exact hid ⟨e, he, hdirty⟩
  unfold dataWrites
  split
  next hlt =>
    cases k with
    | zero => rfl
    | succ k =>
        rw [List.singleton_append, List.take_succ_cons, List.foldl_cons,
          hpages _ k (by rw [Image.len_apply_resize]),
          Image.frameAt_resize _ (Nat.le_of_lt hlt)]
  next hlt =>
    rw [List.nil_append]
    exact hpages _ k (Nat.le_of_not_lt hlt)

/-- No I/O operation of the commit changes a clean page. -/
theorem frameAt_flushedTo (h : Tracks p v) (k : Nat) {id : Nat} (hlo : firstDataPage ≤ id)
    (hhi : id < p.metadata.pageCount) (hid : ¬ p.rebuilt.IsDirty id) :
    (p.flushedTo k).current.frameAt id = p.backend.current.frameAt id := by
  obtain ⟨hsync, hall⟩ := h.follows.run_plan
  have hlen : p.plan.io.length = p.dataWrites.length + 3 := by simp [plan]
  have hflushed : p.flushed.frameAt id = p.backend.current.frameAt id := by
    have := frameAt_dataWrites h.ok p.dataWrites.length hid
    rwa [List.take_length] at this
  have hcommitted : (Tracks.committed p).frameAt id = p.backend.current.frameAt id := by
    have hslot := h.follows.nextSlot_lt.1
    have hfl := (flushed_frameAt h.ok).2
    rw [Follows.frameAt_committed (by omega) (by omega)]
    exact hflushed
  unfold flushedTo
  rcases Nat.lt_or_ge p.dataWrites.length k with hk | hk
  · rcases Nat.lt_or_ge (p.dataWrites.length + 2) k with hk' | hk'
    · rw [List.take_of_length_le (by omega), hall]
      exact hcommitted
    · obtain rfl | rfl : k = p.dataWrites.length + 1 ∨ k = p.dataWrites.length + 2 := by omega
      · rw [hsync]
        exact hflushed
      · have htake : p.plan.io.take (p.dataWrites.length + 2) =
            p.plan.io.take (p.dataWrites.length + 1) ++
              [.writeAt p.nextSlot (metaFrame p.nextMeta p.nextSlot)] := by
          rw [List.take_add_one]
          simp [plan]
        rw [htake, List.foldl_append, hsync]
        exact hcommitted
  · have htake : p.plan.io.take k = (p.dataWrites.take k).map IoOp.ofWrite := by
      rw [plan, List.take_append_of_le_length (by simpa using hk), List.map_take]
    rw [htake, rebuilt_backend, run_writes, h.synced, List.nil_append]
    have := frameAt_dataWrites h.ok k hid
    rwa [h.follows.current_eq] at this ⊢

/-! ## A commit under way -/

/-- A commit begun at `p` has done `k` of its I/O operations, with reads beside it. -/
structure Flushing (p : Pager α) (k : Nat) (q : Pager α) : Prop where
  same : ∃ c, q = { p.rebuilt with backend := p.flushedTo k, cache := c }
  ok : q.Ok
  view : ∀ id, firstDataPage ≤ id → id < p.metadata.pageCount → q.view id = p.rebuilt.view id
  dirty : ∀ id, q.IsDirty id ↔ p.rebuilt.IsDirty id

theorem rebuilt_pageCount (p : Pager α) :
    p.rebuilt.metadata.pageCount = p.metadata.pageCount := by rw [rebuilt_eq]

theorem flushing_begin (hp : p.Ok) : Flushing p 0 p.rebuilt :=
  ⟨⟨p.rebuilt.cache, rfl⟩, rebuilt_ok hp, fun _ _ _ => rfl, fun _ => Iff.rfl⟩

namespace Flushing

variable {k : Nat}

theorem backend (h : Flushing p k q) : q.backend = p.flushedTo k := by
  obtain ⟨c, rfl⟩ := h.same
  rfl

theorem pageCount (h : Flushing p k q) : q.metadata.pageCount = p.metadata.pageCount := by
  obtain ⟨c, rfl⟩ := h.same
  exact p.rebuilt_pageCount

theorem reads (h : Flushing p k q) (hr : Reads q q') : Flushing p k q' := by
  obtain ⟨c, rfl⟩ := h.same
  obtain ⟨c', rfl⟩ := hr.same
  exact ⟨⟨c', rfl⟩, hr.ok, fun id hlo hhi => (hr.view id).trans (h.view id hlo hhi),
    fun id => (hr.dirty id).trans (h.dirty id)⟩

/-- The next operation of the plan keeps the flush on its way. -/
theorem io (htracks : Tracks p v) (h : Flushing p k q) {op : IoOp α}
    (hop : p.plan.io[k]? = some op) : Flushing p (k + 1) (runIo [op] q) := by
  have hnext : (runIo [op] q).backend = p.flushedTo (k + 1) := by
    change op.run q.backend = _
    unfold flushedTo
    rw [List.take_add_one, hop, h.backend, Option.toList_some, List.foldl_append]
    rfl
  have hframes : ∀ id, firstDataPage ≤ id → id < q.metadata.pageCount → ¬ q.IsDirty id →
      (p.flushedTo (k + 1)).current.frameAt id = q.backend.current.frameAt id := by
    intro id hlo hhi hid
    rw [h.pageCount] at hhi
    rw [h.dirty] at hid
    rw [h.backend, frameAt_flushedTo htracks _ hlo hhi hid, frameAt_flushedTo htracks _ hlo hhi hid]
  obtain ⟨c, hc⟩ := h.same
  have hloaded : q.freeLoaded = true := by
    rw [hc]
    change p.rebuilt.freeLoaded = true
    rw [rebuilt_eq]
    rfl
  have hq : runIo [op] q = { q with backend := p.flushedTo (k + 1) } := by
    rw [← hnext]
    rfl
  obtain ⟨hok, hview⟩ := h.ok.withBackend hloaded hframes
  rw [hq]
  refine ⟨⟨c, by rw [hc]⟩, hok, fun id hlo hhi => ?_, fun id => h.dirty id⟩
  rw [hview id hlo (by rw [h.pageCount]; exact hhi)]
  exact h.view id hlo hhi

/-- What the caller owns reads as before the commit. -/
theorem view_owned (hp : p.Ok) (h : Flushing p k q) {id : Nat} (hid : p.Owned id) :
    q.view id = p.view id := by
  rw [h.view id hid.1 hid.2.1]
  exact rebuilt_view hp fun ht => hid.2.2.1 (nextTrunks_subset ht)

/-- The commit ends as it would have without the reads, up to the cache. -/
theorem finish (htracks : Tracks p v) (h : Flushing p p.plan.io.length q) :
    Reads p.afterCommit (commitEnd p.plan q) := by
  obtain ⟨hafter, hcommits⟩ := htracks.follows.afterCommit_spec
  have hslot := htracks.follows.nextSlot_lt.1
  have hfl := (flushed_frameAt htracks.ok).2
  have hall : p.flushedTo p.plan.io.length = Backend.ofImage (Tracks.committed p) := by
    unfold flushedTo
    rw [List.take_length]
    exact htracks.follows.run_plan.2
  have hback : p.afterCommit.backend.current = Tracks.committed p := by
    change (p.plan.io.foldl IoOp.run p.rebuilt.backend).current = _
    rw [htracks.follows.run_plan.2]
    rfl
  -- the file now has what every page of it reads as
  have hfile : ∀ id, firstDataPage ≤ id → id < p.metadata.pageCount →
      (Tracks.committed p).frameAt id = q.view id := by
    intro id hlo hhi
    rw [Follows.frameAt_committed (by omega) (by omega), (flushed_frameAt htracks.ok).1 id,
      h.view id hlo hhi]
  have hres : ∀ id e, PageCache.find q.cache.entries id = some e →
      firstDataPage ≤ id ∧ id < p.metadata.pageCount := by
    intro id e he
    have := h.ok.resident id e he
    rwa [h.pageCount] at this
  have hqview : ∀ id e, PageCache.find q.cache.entries id = some e → q.view id = some e.frame := by
    intro id e he
    unfold Pager.view PageCache.reads
    rw [he]
  have hcoh : PageCache.Coherent (Tracks.committed p).frameAt q.cache.clearDirty.entries := by
    have hframe : ∀ id e, PageCache.find q.cache.entries id = some e →
        (Tracks.committed p).frameAt id = some e.frame := by
      intro id e he
      obtain ⟨hlo, hhi⟩ := hres id e he
      rw [hfile id hlo hhi, hqview id e he]
    refine PageCache.clearDirty_spec h.ok.coherent (fun id e he _ => hframe id e he)
      fun id hnd hne => ?_
    obtain ⟨e, he⟩ := Option.ne_none_iff_exists'.mp hne
    have hclean : e.dirty = false := by
      cases hd : e.dirty with
      | false => rfl
      | true => exact absurd ⟨e, he, hd⟩ hnd
    rw [hframe id e he, h.ok.coherent.clean id e he hclean]
  obtain ⟨c, hc⟩ := h.same
  have hsame : commitEnd p.plan q = { p.afterCommit with cache := q.cache.clearDirty } := by
    rw [hc]
    unfold afterCommit commitEnd runIo
    rw [hall, ← htracks.follows.run_plan.2]
  rw [hsame]
  have hcached : ∀ id e, PageCache.find q.cache.clearDirty.entries id = some e →
      firstDataPage ≤ id ∧ id < p.afterCommit.metadata.pageCount := by
    intro id e he
    rw [PageCache.find_clearDirty] at he
    obtain ⟨e', he', -⟩ := Option.map_eq_some_iff.mp he
    rw [hcommits.count]
    exact hres id e' he'
  refine ⟨⟨_, rfl⟩, hafter.withCache (by rw [hback]; exact hcoh) hcached, fun id => ?_,
    fun id => ?_⟩
  · -- both caches agree with the file
    have hboth : ∀ l, PageCache.Coherent (Tracks.committed p).frameAt l →
        (∀ id, ¬ PageCache.IsDirty l id) →
        PageCache.reads (Tracks.committed p).frameAt l id = (Tracks.committed p).frameAt id := by
      intro l hl hclean
      unfold PageCache.reads
      cases hfind : PageCache.find l id with
      | none => rfl
      | some e =>
          refine (hl.clean id e hfind ?_).symm
          cases hd : e.dirty with
          | false => rfl
          | true => exact absurd ⟨e, hfind, hd⟩ (hclean id)
    have hcohAfter := hafter.coherent
    rw [hback] at hcohAfter
    unfold Pager.view
    rw [hback, hboth _ hcohAfter hcommits.clean]
    exact hboth _ hcoh (PageCache.not_isDirty_clearDirty q.cache)
  · exact iff_of_false (PageCache.not_isDirty_clearDirty q.cache id) (hcommits.clean id)

end Flushing

end Pager

end Edb
