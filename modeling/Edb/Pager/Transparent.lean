import Edb.Pager.RoundTrip
import Edb.Pager.Run
import Edb.Pager.Uncached

/-!
# The page cache is transparent

The pager is the pager without a cache, seen through what its cache has staged
(`Pager.abstracts`): eviction drops frames the file has, a frame read back is the one dropped, and
a commit writes the staged pages, in whatever order. The budget is no part of what is seen, so
pagers that differ in it answer every call alike and leave the same file (`cache_transparent`).
-/

namespace Edb

open Edb.Lib

variable {α : Type}

/-! ## What a cache has staged -/

namespace PageCache

/-- The frame of a page that waits for the next commit. -/
def staged (l : List (Nat × CacheEntry α)) (id : Nat) : Option (Frame α) :=
  (find l id).bind fun e => if e.dirty then some e.frame else none

variable {store : Nat → Option (Frame α)} {l l' : List (Nat × CacheEntry α)}

theorem staged_eq_some (store : Nat → Option (Frame α)) {id : Nat} {f : Frame α} :
    staged l id = some f ↔ IsDirty l id ∧ reads store l id = some f := by
  unfold staged IsDirty reads
  cases find l id with
  | none => simp
  | some e => cases hd : e.dirty <;> simp [hd]

theorem staged_congr (hreads : ∀ id, reads store l' id = reads store l id)
    (hdirty : ∀ id, IsDirty l' id ↔ IsDirty l id) : staged l' = staged l := by
  funext id
  apply Option.ext
  intro f
  rw [staged_eq_some store, staged_eq_some store, hreads, hdirty]

/-- Staged pages lie over the store, clean ones repeat it. -/
theorem reads_eq_staged (hc : Coherent store l) (id : Nat) :
    reads store l id = (staged l id).or (store id) := by
  unfold reads staged
  cases hf : find l id with
  | none => rfl
  | some e =>
    cases hd : e.dirty with
    | true => simp [hd]
    | false => simp [hd, hc.clean id e hf hd]

theorem staged_self (hc : Coherent store l) {id : Nat} {f : Frame α} (h : staged l id = some f) :
    f.id = id := by
  obtain ⟨⟨e, he, -⟩, hreads⟩ := (staged_eq_some store).1 h
  unfold reads at hreads
  rw [he] at hreads
  cases hreads
  exact hc.self id e he

/-- Staging a frame shows it under its id. -/
theorem staged_insert {c : PageCache α} (hc : Coherent store c.entries) (f : Frame α) :
    staged (c.insert f.id f true).entries = Function.update (staged c.entries) f.id (some f) := by
  obtain ⟨-, hreads, hdirty⟩ := insert_dirty_spec (f := f) hc
  funext id
  apply Option.ext
  intro g
  rw [staged_eq_some store, hreads, hdirty]
  by_cases hid : id = f.id
  · subst hid
    simp
  · rw [Function.update_of_ne hid, staged_eq_some store]
    simp [Ne.symm hid]

/-- With no dirty page nothing is staged. -/
theorem staged_clearDirty (c : PageCache α) : staged c.clearDirty.entries = fun _ => none := by
  funext id
  unfold staged
  rw [find_clearDirty]
  cases find c.entries id <;> rfl

/-- What a commit flushes are the staged pages. -/
theorem mem_dirtyPages_iff_staged {c : PageCache α} (hc : Coherent store c.entries) {id : Nat}
    {f : Frame α} : (id, f) ∈ c.dirtyPages ↔ staged c.entries id = some f :=
  (mem_dirtyPages_iff hc.nodup store id f).trans (staged_eq_some store).symm

/-- Staging the trunks, seen from outside. -/
theorem stageTrunks_staged (ts : List Trunk) {c : PageCache α} (head : Nat)
    (hc : Coherent store c.entries) : Coherent store (stageTrunks c head ts).1.entries ∧
      staged (stageTrunks c head ts).1.entries =
        (Uncached.stageChain (staged c.entries) head ts).1 ∧
      (stageTrunks c head ts).2 = (Uncached.stageChain (staged c.entries) head ts).2 := by
  induction ts generalizing c head with
  | nil => exact ⟨hc, rfl, rfl⟩
  | cons t ts ih =>
    obtain ⟨frame, hframe⟩ : ∃ f : Frame α, f = { id := t.id, body := .freelist head t.ids } :=
      ⟨_, rfl⟩
    have hid : frame.id = t.id := by rw [hframe]
    have hcoh := (insert_dirty_spec (f := frame) hc).1
    have hstaged := staged_insert hc frame
    rw [hid] at hcoh hstaged
    rw [stageTrunks, Uncached.stageChain, ← hframe, ← hstaged]
    exact ih t.id hcoh

theorem stageTrunks_resident (ts : List Trunk) (c : PageCache α) (head : Nat) {id : Nat}
    (h : find (stageTrunks c head ts).1.entries id ≠ none) :
    id ∈ ts.map Trunk.id ∨ find c.entries id ≠ none := by
  induction ts generalizing c head with
  | nil => exact .inr h
  | cons t ts ih =>
    rcases ih _ _ h with hmem | hres
    · exact .inl (List.mem_cons_of_mem _ hmem)
    · rcases resident_insert c t.id _ true hres with rfl | hres
      · exact .inl (List.mem_cons_self ..)
      · exact .inr hres

end PageCache

/-! ## Writing pages, in any order -/

/-- Pages written inside the file are laid over it. -/
theorem writes_eq (i : Image α) {l : List (Nat × Frame α)} {layer : Nat → Option (Frame α)}
    (hlayer : ∀ id f, (id, f) ∈ l ↔ layer id = some f) (hlt : ∀ d ∈ l, d.1 < i.len)
    (hnodup : (l.map Prod.fst).Nodup) :
    (l.map fun d => Write.page d.1 d.2).foldl Image.apply i =
      { len := i.len, cells := fun id => (layer id).or (i.cells id) } := by
  obtain ⟨hlen, hwritten, hrest⟩ := cells_writes i l hlt hnodup
  have hcells : ((l.map fun d => Write.page d.1 d.2).foldl Image.apply i).cells =
      fun id => (layer id).or (i.cells id) := by
    funext id
    cases hid : layer id with
    | some f => exact hwritten (id, f) ((hlayer id f).2 hid)
    | none =>
      refine hrest id fun hmem => ?_
      obtain ⟨d, hd, rfl⟩ := List.mem_map.1 hmem
      rw [(hlayer d.1 d.2).1 hd] at hid
      cases hid
  rw [← hlen, ← hcells]

/-! ## The pager and the pager without its cache -/

/-- Perform a call. -/
def PagerCall.run [Payload α] : PagerCall α → PagerM α (PagerReply α)
  | .alloc => do
      let id ← Pager.alloc
      pure (.page id)
  | .writePage id payload => do
      Pager.writePage id payload
      pure .done
  | .readPage id => do
      let f ← Pager.readPage id
      pure (.frame f)
  | .free id => do
      Pager.free id
      pure .done
  | .commit => do
      Pager.commit
      pure .done

namespace Pager

/-- A call, its reply and the file it leaves. -/
def step [Payload α] (p : Pager α) (c : PagerCall α) : PagerOutput α × Pager α :=
  match c.run p with
  | .ok reply p' => ((.ok reply, p'.backend.current), p')
  | .error e p' => ((.error e, p'.backend.current), p')

/-- The pager with what its cache has staged in place of the cache. -/
def uncached (p : Pager α) : Uncached α where
  file := p.backend.current
  staged := PageCache.staged p.cache.entries
  metadata := p.metadata
  activeSlot := p.activeSlot
  frees := p.frees
  trunks := p.trunkIds

/-- The invariant of a pager between calls, whatever its caller frees. -/
structure Tame (p : Pager α) : Prop where
  loads : p.freeLoaded = false → ∃ r, loadFreeList p.backend.current p.metadata = .ok r
  coherent : p.Coherent
  resident : ∀ id, PageCache.find p.cache.entries id ≠ none →
    firstDataPage ≤ id ∧ id < p.metadata.pageCount
  synced : p.backend.unsynced = []
  ok : p.uncached.Ok

/-- The step of the pager keeps its invariant and is the step of the pager without its cache. -/
def Shows (r : PagerOutput α × Pager α) (r' : PagerOutput α × Uncached α) : Prop :=
  r.2.Tame ∧ r.1 = r'.1 ∧ r.2.uncached = r'.2

variable {p p' : Pager α}

theorem Ok.tame (hp : p.Ok) (hsynced : p.backend.unsynced = []) : p.Tame where
  loads := hp.loads
  coherent := hp.coherent
  resident := fun id hid => by
    obtain ⟨e, he⟩ := Option.ne_none_iff_exists'.1 hid
    exact hp.resident id e he
  synced := hsynced
  ok := ⟨hp.range, hp.count, fun _ _ h => PageCache.staged_self hp.coherent h⟩

theorem view_eq_uncached (hc : p.Coherent) (id : Nat) : p.view id = p.uncached.view id :=
  PageCache.reads_eq_staged hc id

/-- What only moves the cache cannot be seen. -/
theorem Tame.peek (hp : p.Tame) (h : Peeks p p') : p'.Tame ∧ p'.uncached = p.uncached := by
  have hcoh := h.coherent
  have hres := h.resident
  have hstaged : PageCache.staged p'.cache.entries = PageCache.staged p.cache.entries := by
    have hview := h.view
    have hdirty := h.dirty
    obtain ⟨c, rfl⟩ := h.same
    exact PageCache.staged_congr hview hdirty
  obtain ⟨c, rfl⟩ := h.same
  have hu : uncached { p with cache := c } = p.uncached := by
    change ({ p.uncached with staged := PageCache.staged c.entries } : Uncached α) = p.uncached
    rw [hstaged]
    rfl
  refine ⟨⟨hp.loads, hcoh, fun id hid => ?_, hp.synced, hu ▸ hp.ok⟩, hu⟩
  rcases hres id hid with hold | hrange
  · exact hp.resident id hold
  · exact hrange

/-- A read shows what the pager without a cache returns. -/
theorem shown_eq_uncached (hc : p.Coherent) (id : Nat) : p.shown id = p.uncached.readPage id := by
  unfold shown fetched Uncached.readPage
  rw [view_eq_uncached hc, Uncached.view]
  cases hstaged : p.uncached.staged id with
  | some f => rfl
  | none =>
    rw [Option.none_or]
    cases hfile : p.uncached.file.frameAt id with
    | none => rfl
    | some f =>
      have hread : p.uncached.file.readAt id = .ok f := Image.readAt_eq_ok.2 hfile
      simp only [hread]
      rfl

namespace Tame

/-- The trunks of the next commit are staged as they are without a cache. -/
theorem chained (hp : p.Tame) :
    PageCache.Coherent p.backend.current.frameAt p.rebuilt.cache.entries ∧
      PageCache.staged p.rebuilt.cache.entries = p.uncached.chained.1 ∧
      (stageTrunks p.cache 0 p.nextTrunks).2 = p.uncached.chained.2 := by
  rw [rebuilt_cache]
  exact PageCache.stageTrunks_staged p.nextTrunks 0 hp.coherent

theorem rebuilt_resident (hp : p.Tame) {id : Nat}
    (h : PageCache.find p.rebuilt.cache.entries id ≠ none) :
    firstDataPage ≤ id ∧ id < p.metadata.pageCount := by
  rw [rebuilt_cache] at h
  rcases PageCache.stageTrunks_resident _ _ _ h with hmem | hres
  · exact hp.ok.range id (List.mem_append_left _ (nextTrunks_subset hmem))
  · exact hp.resident id hres

/-- A flush leaves the file that the pager without a cache writes. -/
theorem flushed (hp : p.Tame) : p.flushed = p.uncached.flushed := by
  obtain ⟨hcoh, hstaged, -⟩ := hp.chained
  have hgrown : p.flushed = (p.rebuilt.cache.dirtyPages.map fun d => Write.page d.1 d.2).foldl
      Image.apply p.uncached.grown := by
    unfold Pager.flushed dataWrites Uncached.grown
    rw [List.foldl_append]
    change _ = List.foldl _ (if p.backend.current.len < p.metadata.pageCount then _ else _) _
    split <;> rfl
  rw [hgrown, writes_eq p.uncached.grown (fun id f => PageCache.mem_dirtyPages_iff_staged hcoh)
    (fun d hd => ?_) (PageCache.dirtyPages_nodup hcoh.nodup), hstaged]
  · rfl
  · obtain ⟨e, he, -⟩ := (PageCache.mem_dirtyPages hcoh.nodup d.1 d.2).1 hd
    have hrange := hp.rebuilt_resident (by rw [he]; exact Option.some_ne_none _)
    exact Nat.lt_of_lt_of_le hrange.2 p.uncached.le_grown_len

theorem nextMeta (hp : p.Tame) : p.nextMeta = p.uncached.nextMeta := by
  unfold Pager.nextMeta Uncached.nextMeta
  rw [rebuilt_eq, ← hp.chained.2.2]
  rfl

theorem afterCommit_backend (hp : p.Tame) :
    p.afterCommit.backend = Backend.ofImage p.uncached.commit.file := by
  change p.plan.io.foldl IoOp.run p.rebuilt.backend = _
  rw [(run_plan_of_synced hp.synced).2, Tracks.committed, hp.flushed, hp.nextMeta]
  rfl

/-- A commit forgets the cache as the commit without one does. -/
theorem afterCommit_uncached (hp : p.Tame) : p.afterCommit.uncached = p.uncached.commit := by
  apply Uncached.ext
  · change p.afterCommit.backend.current = _
    rw [hp.afterCommit_backend]
    rfl
  · exact PageCache.staged_clearDirty p.rebuilt.cache
  · exact hp.nextMeta
  · rfl
  · exact p.afterCommit_frees
  · exact p.afterCommit_trunkIds

/-- After a commit every frame in the cache is the one in the file. -/
theorem afterCommit_coherent (hp : p.Tame) : p.afterCommit.Coherent := by
  obtain ⟨hcoh, hstaged, -⟩ := hp.chained
  have hfile : ∀ id, PageCache.find p.rebuilt.cache.entries id ≠ none →
      p.uncached.commit.file.frameAt id = PageCache.reads p.backend.current.frameAt
        p.rebuilt.cache.entries id := by
    intro id hid
    obtain ⟨hlo, hhi⟩ := hp.rebuilt_resident hid
    rw [Uncached.commit_frameAt hp.ok hlo hhi, PageCache.reads_eq_staged hcoh, hstaged]
    rfl
  unfold Coherent
  rw [hp.afterCommit_backend, Backend.current_ofImage]
  refine PageCache.clearDirty_spec hcoh (fun id e he _ => ?_) fun id hnd hres => ?_
  · rw [hfile id (by rw [he]; exact Option.some_ne_none _), PageCache.reads, he]
  · rw [hfile id hres, PageCache.reads_eq_staged hcoh]
    have hnone : PageCache.staged p.rebuilt.cache.entries id = none := by
      rw [Option.eq_none_iff_forall_ne_some]
      exact fun f hf => hnd ((PageCache.staged_eq_some p.backend.current.frameAt).1 hf).1
    rw [hnone, Option.none_or]

theorem afterCommit (hp : p.Tame) : p.afterCommit.Tame where
  loads := by
    intro h
    change p.rebuilt.freeLoaded = false at h
    rw [rebuilt_eq] at h
    cases h
  coherent := hp.afterCommit_coherent
  resident := by
    intro id hid
    rw [p.afterCommit_count]
    refine hp.rebuilt_resident fun hnone => hid ?_
    change PageCache.find p.rebuilt.cache.clearDirty.entries id = none
    rw [PageCache.find_clearDirty, hnone]
    rfl
  synced := by
    rw [hp.afterCommit_backend]
    rfl
  ok := hp.afterCommit_uncached ▸ hp.ok.commit

end Tame

section Calls

variable [Payload α] {c : PagerCall α} {u : Uncached α}

theorem shows_of_ok {reply : PagerReply α} (hrun : c.run p = .ok reply p') (ht : p'.Tame)
    (hu : p'.uncached = u) : Shows (p.step c) (u.answer (.ok reply)) := by
  subst hu
  unfold step
  rw [hrun]
  exact ⟨ht, rfl, rfl⟩

theorem shows_of_error {e : PagerError} (hrun : c.run p = .error e p') (ht : p'.Tame)
    (hu : p'.uncached = u) : Shows (p.step c) (u.answer (.error e)) := by
  subst hu
  unfold step
  rw [hrun]
  exact ⟨ht, rfl, rfl⟩

/-- A read answers as it does without a cache. -/
theorem shows_readPage (hp : p.Tame) (id : Nat) :
    Shows (p.step (.readPage id)) (p.uncached.step (.readPage id)) := by
  have hread := readPage_peeks hp.coherent id
  rw [shown_eq_uncached hp.coherent] at hread
  have hstep : p.uncached.step (.readPage id) =
      p.uncached.answer ((p.uncached.readPage id).map .frame) := rfl
  rw [hstep]
  cases hout : p.uncached.readPage id with
  | ok f =>
    rw [hout] at hread
    obtain ⟨f', p', -, hrun, hpeeks, rfl⟩ := hread
    obtain ⟨ht, hu⟩ := hp.peek hpeeks
    exact shows_of_ok (Lib.bind_of_ok hrun) ht hu
  | error e =>
    rw [hout] at hread
    obtain ⟨p', -, hrun, hpeeks⟩ := hread
    obtain ⟨ht, hu⟩ := hp.peek hpeeks
    exact shows_of_error (Lib.bind_of_error hrun) ht hu

/-- A write answers as it does without a cache, and leaves the same file to flush. -/
theorem shows_writePage (hp : p.Tame) (id : Nat) (payload : α) :
    Shows (p.step (.writePage id payload)) (p.uncached.step (.writePage id payload)) := by
  have hstep : p.uncached.step (.writePage id payload) =
      p.uncached.attempt (p.uncached.writePage id payload) := rfl
  have hok : (p.uncached.step (.writePage id payload)).2.Ok := hp.ok.step _
  rw [hstep] at hok ⊢
  unfold Uncached.writePage at hok ⊢
  by_cases hrange : id < firstDataPage ∨ id ≥ p.uncached.metadata.pageCount
  · rw [if_pos hrange]
    exact shows_of_error (Lib.bind_of_error (Lib.bind_of_error (inRange_error hrange))) hp rfl
  · obtain ⟨hlo, hhi⟩ := not_or.1 hrange
    have hwrite := writePage_eq (Nat.not_lt.1 hlo) (Nat.not_le.1 hhi) payload
    rw [if_neg hrange] at hok ⊢
    by_cases hlen : Payload.len payload > pagePayloadSize
    · rw [if_pos hlen] at hwrite ⊢
      exact shows_of_error (Lib.bind_of_error hwrite) hp rfl
    · rw [if_neg hlen] at hwrite hok ⊢
      have hcoh := (PageCache.insert_dirty_spec
        (f := { id := id, body := .data payload }) hp.coherent).1
      have hstaged := PageCache.staged_insert hp.coherent { id := id, body := .data payload }
      have hu : uncached { p with
          cache := p.cache.insert id { id := id, body := .data payload } true } =
          { p.uncached with
            staged := Function.update p.uncached.staged id
              (some { id := id, body := .data payload }) } := by
        change ({ p.uncached with staged := PageCache.staged _ } : Uncached α) = _
        rw [hstaged]
        rfl
      refine shows_of_ok (Lib.bind_of_ok hwrite) ⟨hp.loads, hcoh, fun id' hid' => ?_, hp.synced,
        hu ▸ hok⟩ hu
      rcases PageCache.resident_insert _ id _ true hid' with rfl | hres
      · exact ⟨Nat.not_lt.1 hlo, Nat.not_le.1 hhi⟩
      · exact hp.resident id' hres

/-- A free answers as it does without a cache. -/
theorem shows_free (hp : p.Tame) (id : Nat) :
    Shows (p.step (.free id)) (p.uncached.step (.free id)) := by
  have hstep : p.uncached.step (.free id) = p.uncached.attempt (p.uncached.free id) := rfl
  have hok : (p.uncached.step (.free id)).2.Ok := hp.ok.step _
  rw [hstep] at hok ⊢
  unfold Uncached.free at hok ⊢
  by_cases hrange : id < firstDataPage ∨ id ≥ p.uncached.metadata.pageCount
  · rw [if_pos hrange]
    exact shows_of_error (Lib.bind_of_error (Lib.bind_of_error (inRange_error hrange))) hp rfl
  · rw [if_neg hrange] at hok ⊢
    obtain ⟨hlo, hhi⟩ := not_or.1 hrange
    have hfree := free_eq hp.loads (Nat.not_lt.1 hlo) (Nat.not_le.1 hhi)
    exact shows_of_ok (Lib.bind_of_ok hfree)
      ⟨(by intro h; cases h), hp.coherent, hp.resident, hp.synced, hok⟩ rfl

/-- An allocation hands out the page it does without a cache. -/
theorem shows_alloc (hp : p.Tame) : Shows (p.step .alloc) (p.uncached.step .alloc) := by
  have hstep : p.uncached.step .alloc =
      p.uncached.alloc.2.answer (.ok (.page p.uncached.alloc.1)) := rfl
  have hok : p.uncached.alloc.2.Ok := hp.ok.alloc
  rw [hstep]
  unfold Uncached.alloc at hok ⊢
  cases hlast : p.uncached.frees.getLast? with
  | some id =>
    rw [hlast] at hok
    have halloc : alloc p = .ok id { p.load with
        freeSet := p.frees.dropLast, allocLog := p.allocLog.map (· ++ [id]) } := by
      unfold alloc
      rw [Lib.bind_of_ok (ensureFreeLoaded_eq hp.loads), Lib.bind_of_ok (Lib.get_apply _),
        show p.load.freeSet.getLast? = some id from hlast]
      rfl
    exact shows_of_ok (Lib.bind_of_ok halloc)
      ⟨(by intro h; cases h), hp.coherent, hp.resident, hp.synced, hok⟩ rfl
  | none =>
    rw [hlast] at hok
    have halloc : alloc p = .ok p.metadata.pageCount { p.load with
        metadata := { p.metadata with pageCount := p.metadata.pageCount + 1 }
        allocLog := p.allocLog.map (· ++ [p.metadata.pageCount]) } := by
      unfold alloc
      rw [Lib.bind_of_ok (ensureFreeLoaded_eq hp.loads), Lib.bind_of_ok (Lib.get_apply _),
        show p.load.freeSet.getLast? = none from hlast]
      rfl
    exact shows_of_ok (Lib.bind_of_ok halloc) ⟨(by intro h; cases h), hp.coherent, fun id hid =>
      ⟨(hp.resident id hid).1, Nat.lt_succ_of_lt (hp.resident id hid).2⟩, hp.synced, hok⟩ rfl

theorem shows_commit (hp : p.Tame) : Shows (p.step .commit) (p.uncached.step .commit) :=
  shows_of_ok (Lib.bind_of_ok (commit_eq hp.loads)) hp.afterCommit hp.afterCommit_uncached

/-- **The pager is the pager without its cache**, whatever its budget. -/
theorem abstracts : Lib.Abstracts (step : Pager α → PagerCall α → PagerOutput α × Pager α) Tame
    uncached Uncached.step := by
  have hshows : ∀ (p : Pager α) (c : PagerCall α), p.Tame →
      Shows (p.step c) (p.uncached.step c) := by
    intro p c hp
    cases c with
    | alloc => exact shows_alloc hp
    | writePage id payload => exact shows_writePage hp id payload
    | readPage id => exact shows_readPage hp id
    | free id => exact shows_free hp id
    | commit => exact shows_commit hp
  exact ⟨fun p c hp => (hshows p c hp).1, fun p c hp => (hshows p c hp).2.1,
    fun p c hp => (hshows p c hp).2.2⟩

end Calls

/-! ## Any two budgets -/

/-- The pagers of one database, one for each budget: just created, or opened from a file that
stores a version. -/
inductive Start : (Nat → Pager α) → Prop
  | created : Start create
  | opened {i : Image α} {slot : Nat} {v : Version α} {start : Nat → Pager α} : Stored i slot v →
      (∀ cacheBytes, openImage i cacheBytes = .ok (start cacheBytes)) → Start start

instance (p : Pager α) (id : Nat) : Decidable (p.Owned id) :=
  inferInstanceAs (Decidable (_ ∧ _ ∧ _ ∧ _))

/-- How a page stands before the first call. -/
def standing (p : Pager α) (id : Nat) : Standing α := if p.Owned id then .held else .away

/-- Both ways to start give a pager in order, the same one for every budget. -/
theorem Start.spec {start : Nat → Pager α} (h : Start start) (b : Nat) :
    (start b).Ok ∧ (start b).Tame ∧ (start b).uncached = (start 0).uncached := by
  cases h with
  | created => exact ⟨create_ok b, (create_ok b).tame rfl, rfl⟩
  | @opened i slot v start hstored hopen =>
    have hstart : start = fun b => adopt i b v.metadata slot := by
      funext b
      have hrun := hopen b
      rw [hstored.openImage] at hrun
      exact (Except.ok.inj hrun).symm
    subst hstart
    have htracks := tracks_adopt hstored b
    exact ⟨htracks.ok, htracks.ok.tame htracks.synced, rfl⟩

/-- At the start the free list bears out how every page stands. -/
theorem Ok.fits (hp : p.Ok) (id : Nat) : p.uncached.Fits id (p.standing id) := by
  unfold standing
  by_cases hid : p.Owned id
  · rw [if_pos hid]
    refine ⟨hid.1, hid.2.1, List.count_eq_zero.2 fun hmem => ?_⟩
    rcases List.mem_append.1 hmem with hm | hm
    · exact hid.2.2.1 hm
    · exact hid.2.2.2 hm
  · rw [if_neg hid]
    exact List.nodup_iff_count_le_one.1 hp.nodup id

/-- **The page cache is transparent.** Two pagers of one database that differ in their budget
answer any calls alike, and each call leaves them the same file; and a page that was written since
it was last handed out, was not returned since, and was never returned while nobody held it, reads
as it was last written. -/
theorem cache_transparent [Payload α] {start : Nat → Pager α} (hstart : Start start)
    (calls : List (PagerCall α)) (b b' : Nat) :
    trace step (start b) calls = trace step (start b') calls ∧
      ∀ (id : Nat) (payload : α),
        (trace step (start b) calls).foldl (Standing.after id) ((start b).standing id) =
            .wrote payload →
          ((final step (start b) calls).step (.readPage id)).1.1 =
            .ok (.frame { id := id, body := .data payload }) := by
  obtain ⟨hok, htame, hb⟩ := hstart.spec b
  obtain ⟨-, htame', hb'⟩ := hstart.spec b'
  refine ⟨?_, fun id payload hwrote => ?_⟩
  · rw [abstracts.trace_eq htame, abstracts.trace_eq htame', hb, hb']
  · obtain ⟨hfinal, hstate⟩ := abstracts.final_eq htame calls
    have hfits := foldl_trace (I := fun u s => Uncached.Ok u ∧ u.Fits id s)
      (fun u s c h => ⟨h.1.step c, Uncached.fits_step h.1 h.2 c⟩) ⟨htame.ok, hok.fits id⟩ calls
    rw [← abstracts.trace_eq htame, hwrote, ← hstate] at hfits
    rw [abstracts.output _ _ hfinal]
    change Except.map PagerReply.frame (Uncached.readPage _ id) = _
    rw [Uncached.readPage_of_fits hfits.2]
    rfl

/-! ### Runs on two budgets -/

/-- Page 2 is handed out and written. -/
def writeOnce : List (PagerCall Unit) := [.alloc, .writePage 2 ()]

/-- Page 2 is read back after its commit evicted it, and is what was written. -/
theorem cache_transparent_writeOnce :
    ((final step (create 0) (writeOnce ++ [.commit])).step (.readPage 2)).1.1 =
      .ok (.frame { id := 2, body := .data () }) := by
  have hwrote : (trace step (create 0) (writeOnce ++ [.commit])).foldl (Standing.after 2)
      ((create 0).standing 2) = .wrote () := by decide +kernel
  have hread := (cache_transparent Start.created (writeOnce ++ [.commit]) 0 pageSize).2 2 ()
  exact hread hwrote

/-- The payload a page was last written with since it was handed out, whether or not it was
returned. -/
def lastWritten (id : Nat) (last : Option Unit) : PagerCall Unit × PagerOutput Unit → Option Unit
  | (.alloc, .ok (.page id'), _) => if id' = id then none else last
  | (.writePage id' payload, .ok _, _) => if id' = id then some payload else last
  | _ => last

/-- A page that was returned serves the free list at the next commit; so does one returned twice,
whoever holds it by then. -/
theorem returned_page_becomes_trunk :
    (¬ ∀ (calls : List (PagerCall Unit)) (id : Nat) (payload : Unit),
      (trace step (create 0) calls).foldl (lastWritten id) none = some payload →
        ((final step (create 0) calls).step (.readPage id)).1.1 =
          .ok (.frame { id := id, body := .data payload })) ∧
      ((final step (create 0) ([.alloc, .free 2, .free 2] ++ writeOnce ++ [.commit])).step
        (.readPage 2)).1.1 = .ok (.frame { id := 2, body := .freelist 0 [] }) := by
  refine ⟨fun h => ?_, by rfl⟩
  have hread : ((final step (create 0) (writeOnce ++ [.free 2, .commit])).step
      (.readPage 2)).1.1 = .ok (.frame { id := 2, body := .freelist 0 [] }) := by rfl
  have hclaim := h (writeOnce ++ [.free 2, .commit]) 2 () (by rfl)
  rw [hread] at hclaim
  cases hclaim

end Pager

end Edb
