import Edb.Pager.Freelist

/-!
# Commit and crashes

A `Version` is what a commit makes durable: its meta, the pages the caller considers live with
their contents, and its trunk chain. `Stored i slot v` says that the file `i` holds the version
`v` under the meta slot `slot`, which is what opening the file adopts (`Stored.openImage`).

`Tracks p v` is the invariant of a running pager whose last commit was `v`: nothing it has
staged touches a page of `v`. From it, a commit interrupted anywhere leaves a file that stores
`v` or the version being committed (`Tracks.crash`), and a finished one tracks the new version
(`Tracks.commit`).
-/

namespace Edb

variable {α : Type}

/-- What a commit makes durable. -/
structure Version (α : Type) where
  metadata : Meta
  /-- The pages in use by the caller's data. -/
  live : Nat → Prop
  /-- What the pages read as. -/
  content : Nat → Option (Frame α)
  /-- The trunk chain, head first. -/
  trunks : List Trunk

namespace Version

/-- The free ids the trunk chain stores. -/
def free (v : Version α) : List Nat := v.trunks.flatMap Trunk.ids

def trunkIds (v : Version α) : List Nat := v.trunks.map Trunk.id

/-- The parts of a version fit together: the free ids, the trunks and the live pages are
distinct pages of the file. -/
structure Sound (v : Version α) : Prop where
  valid : v.metadata.Valid
  trunksOk : TrunksOk v.metadata.pageCount v.trunks
  nodup : (v.free ++ v.trunkIds).Nodup
  range : ∀ id ∈ v.free ++ v.trunkIds, firstDataPage ≤ id ∧ id < v.metadata.pageCount
  liveRange : ∀ id, v.live id → firstDataPage ≤ id ∧ id < v.metadata.pageCount
  liveNotFree : ∀ id, v.live id → id ∉ v.free ++ v.trunkIds

/-- Every page of the version reads back as it was committed. -/
structure Intact (v : Version α) (frame : Nat → Option (Frame α)) : Prop where
  live : ∀ id, v.live id → frame id = v.content id
  chain : ∃ head, v.metadata.freelistHead = u64ToOpt head ∧ TrunkChain frame head v.trunks

/-- A version stays intact while the frames of its pages stay. -/
theorem Intact.congr {v : Version α} {frame frame' : Nat → Option (Frame α)} (h : v.Intact frame)
    (hf : ∀ id, v.live id ∨ id ∈ v.trunkIds → frame' id = frame id) : v.Intact frame' := by
  obtain ⟨hlive, head, hhead, hchain⟩ := h
  refine ⟨fun id hid => (hf id (.inl hid)).trans (hlive id hid), head, hhead,
    hchain.congr fun t ht => hf t.id (.inr (List.mem_map_of_mem ht))⟩

end Version

/-! ## Opening a file that stores a version -/

/-- A meta is read from a slot exactly when the slot holds one that decodes. -/
theorem readMeta_eq_ok {i : Image α} {slot : Nat} {m : Meta} : readMeta i slot = .ok m ↔
    ∃ f image, i.frameAt slot = some f ∧ f.body = .metaPage image ∧
      Meta.decode image slot = .ok m := by
  unfold readMeta
  cases hread : i.readAt slot with
  | error e =>
      simp only [reduceCtorEq, false_iff, not_exists, not_and]
      intro f image hf
      rw [Image.readAt_eq_ok.mpr hf] at hread
      cases hread
  | ok f =>
      have hf := Image.readAt_eq_ok.mp hread
      simp only [hf, Option.some_inj]
      constructor
      · intro h
        cases hb : f.body with
        | metaPage image => exact ⟨f, image, rfl, hb, by simpa [hb] using h⟩
        | freelist next ids => simp [hb] at h
        | data payload => simp [hb] at h
      · rintro ⟨f', image, rfl, hb, hd⟩
        rw [hb]
        exact hd

theorem readMeta_congr {i i' : Image α} {slot : Nat} (h : i'.frameAt slot = i.frameAt slot)
    (m : Meta) : readMeta i' slot = .ok m ↔ readMeta i slot = .ok m := by
  rw [readMeta_eq_ok, readMeta_eq_ok, h]

theorem readMeta_metaFrame {i : Image α} {slot : Nat} {m : Meta} (hm : m.Valid)
    (h : i.frameAt slot = some (metaFrame m slot)) : readMeta i slot = .ok m :=
  readMeta_eq_ok.mpr ⟨_, _, h, rfl, Meta.decode_encode hm slot⟩

/-- The file holds the version under a meta slot, newer than whatever the other slot holds. -/
structure Stored (i : Image α) (slot : Nat) (v : Version α) : Prop where
  isSlot : slot = 0 ∨ slot = 1
  here : i.frameAt slot = some (metaFrame v.metadata slot)
  other : ∀ m, readMeta i (1 - slot) = .ok m → m.txnId < v.metadata.txnId
  len : v.metadata.pageCount ≤ i.len
  intact : v.Intact i.frameAt
  sound : v.Sound

/-- Opening a file that stores a version adopts that version. -/
theorem Stored.openImage {i : Image α} {slot : Nat} {v : Version α} (h : Stored i slot v)
    (cacheBytes : Nat) :
    Pager.openImage i cacheBytes = .ok (Pager.adopt i cacheBytes v.metadata slot) := by
  have hread := readMeta_metaFrame h.sound.valid h.here
  have hlen : ¬ i.len < firstDataPage := by
    have := h.len
    have := h.sound.valid.count
    omega
  have hother := h.other
  unfold Pager.openImage
  rw [if_neg hlen]
  rcases h.isSlot with rfl | rfl
  · rw [hread]
    cases hr : readMeta i 1 with
    | error e => rfl
    | ok m =>
        have := hother m hr
        exact if_neg (by omega)
  · rw [hread]
    cases hr : readMeta i 0 with
    | error e => rfl
    | ok m =>
        have := hother m hr
        exact if_pos this

theorem Stored.loadFreeList {i : Image α} {slot : Nat} {v : Version α} (h : Stored i slot v) :
    loadFreeList i v.metadata = .ok (v.free, v.trunkIds) := by
  obtain ⟨head, hhead, hchain⟩ := h.intact.chain
  exact loadFreeList_of_chain hhead hchain h.sound.trunksOk

/-- A file that differs from one storing a version only outside its pages stores it too. -/
theorem Stored.congr {i i' : Image α} {slot : Nat} {v : Version α} (h : Stored i slot v)
    (hlen : i.len ≤ i'.len) (hhere : i'.frameAt slot = i.frameAt slot)
    (hother : ∀ m, readMeta i' (1 - slot) = .ok m → readMeta i (1 - slot) = .ok m)
    (hpages : ∀ id, v.live id ∨ id ∈ v.trunkIds → i'.frameAt id = i.frameAt id) :
    Stored i' slot v :=
  ⟨h.isSlot, hhere.trans h.here, fun m hm => h.other m (hother m hm), Nat.le_trans h.len hlen,
    h.intact.congr hpages, h.sound⟩

/-- Unsynced writes outside a version cannot harm it, whichever of them a crash keeps. -/
theorem Stored.afterCrash {i : Image α} {slot : Nat} {v : Version α} (h : Stored i slot v)
    {ws : List (Write α)} (fates : List Fate)
    (hdata : ∀ w ∈ ws, ∀ id ∈ w.target, firstDataPage ≤ id ∧ ¬ v.live id ∧ id ∉ v.trunkIds)
    (hresize : ws.Pairwise (fun _ w => w.target ≠ none)) (hext : ∀ w ∈ ws, w.Extends i.len) :
    Stored (i.afterCrash ws fates) slot v := by
  have hcount := h.sound.valid.count
  have hlen := h.len
  have hfirst : firstDataPage = 2 := rfl
  have hkeep : ∀ id, id < i.len → (∀ w ∈ ws, w.target ≠ some id) →
      (i.afterCrash ws fates).frameAt id = i.frameAt id ∧
        i.len ≤ (i.afterCrash ws fates).len := fun id hid ht =>
    Image.frameAt_afterCrash fates ht hresize hext hid
  have hmeta : ∀ s, s < firstDataPage → (i.afterCrash ws fates).frameAt s = i.frameAt s ∧
      i.len ≤ (i.afterCrash ws fates).len := by
    intro s hs
    refine hkeep s (by omega) fun w hw ht => ?_
    have := (hdata w hw s ht).1
    omega
  have hslot := h.isSlot
  refine h.congr (hmeta slot (by omega)).2 (hmeta slot (by omega)).1
    (fun m hm => (readMeta_congr (hmeta (1 - slot) (by omega)).1 m).mp hm) fun id hid => ?_
  refine (hkeep id ?_ fun w hw ht => ?_).1
  · rcases hid with hid | hid
    · have := (h.sound.liveRange id hid).2
      omega
    · have := (h.sound.range id (List.mem_append_right _ hid)).2
      omega
  · obtain ⟨-, hnl, hnt⟩ := hdata w hw id ht
    rcases hid with hid | hid
    · exact hnl hid
    · exact hnt hid

/-! ## The I/O of a commit -/

/-- A file modification as an I/O operation. -/
def IoOp.ofWrite : Write α → IoOp α
  | .page id f => .writeAt id f
  | .resize len => .truncate len

/-- Writes queue up until the next sync. -/
theorem run_writes (b : Backend α) (ws : List (Write α)) :
    (ws.map IoOp.ofWrite).foldl IoOp.run b = { b with unsynced := b.unsynced ++ ws } := by
  induction ws generalizing b with
  | nil => simp
  | cons w ws ih =>
      rw [List.map_cons, List.foldl_cons, ih]
      cases w <;> simp [IoOp.ofWrite, IoOp.run, Backend.writeAt, Backend.truncate]

/-- Keeping every write is applying them all. -/
theorem afterCrash_kept (i : Image α) (ws : List (Write α)) :
    i.afterCrash ws (ws.map fun _ => .kept) = ws.foldl Image.apply i := by
  induction ws generalizing i with
  | nil => rfl
  | cons w ws ih =>
      rw [List.map_cons, Image.afterCrash, List.foldl_cons, ih]
      cases w <;> rfl

/-- Writing pages inside the file changes their cells and no others. -/
theorem cells_writes (i : Image α) (l : List (Nat × Frame α)) (hlt : ∀ d ∈ l, d.1 < i.len)
    (hnodup : (l.map Prod.fst).Nodup) :
    ((l.map fun d => Write.page d.1 d.2).foldl Image.apply i).len = i.len ∧
      (∀ d ∈ l, ((l.map fun d => Write.page d.1 d.2).foldl Image.apply i).cells d.1 = some d.2) ∧
      ∀ id, id ∉ l.map Prod.fst →
        ((l.map fun d => Write.page d.1 d.2).foldl Image.apply i).cells id = i.cells id := by
  induction l generalizing i with
  | nil => exact ⟨rfl, by simp, fun _ _ => rfl⟩
  | cons d l ih =>
    rw [List.map_cons, List.nodup_cons] at hnodup
    have hlen : (i.apply (.page d.1 d.2)).len = i.len := by
      have := hlt d (List.mem_cons_self ..)
      rw [Image.len_apply_page]
      omega
    obtain ⟨h₁, h₂, h₃⟩ := ih (i.apply (.page d.1 d.2))
      (fun d' hd' => by rw [hlen]; exact hlt d' (List.mem_cons_of_mem _ hd')) hnodup.2
    refine ⟨h₁.trans hlen, fun d' hd' => ?_, fun id hid => ?_⟩
    · rcases List.mem_cons.1 hd' with rfl | hd'
      · exact (h₃ d'.1 hnodup.1).trans (Function.update_self ..)
      · exact h₂ d' hd'
    · rw [List.map_cons, List.mem_cons, not_or] at hid
      exact (h₃ id hid.2).trans (Function.update_of_ne hid.1 ..)

/-- Writing pages inside the file: each written page reads as written, the others as before. -/
theorem frameAt_writes (i : Image α) (l : List (Nat × Frame α))
    (hid : ∀ d ∈ l, d.2.id = d.1) (hlt : ∀ d ∈ l, d.1 < i.len)
    (hnodup : (l.map Prod.fst).Nodup) :
    ((l.map fun d => Write.page d.1 d.2).foldl Image.apply i).len = i.len ∧
      (∀ d ∈ l, ((l.map fun d => Write.page d.1 d.2).foldl Image.apply i).frameAt d.1 = some d.2) ∧
      ∀ id, id ∉ l.map Prod.fst →
        ((l.map fun d => Write.page d.1 d.2).foldl Image.apply i).frameAt id = i.frameAt id := by
  obtain ⟨hlen, hwritten, hrest⟩ := cells_writes i l hlt hnodup
  refine ⟨hlen, fun d hd => ?_, fun id hnot => ?_⟩
  · unfold Image.frameAt
    rw [hlen, if_pos (hlt d hd), hwritten d hd, Option.filter_some,
      if_pos (decide_eq_true (hid d hd))]
  · unfold Image.frameAt
    rw [hlen, hrest id hnot]

namespace Pager

/-- The pager with its free list rebuilt for the next commit. -/
def rebuilt (p : Pager α) : Pager α := p.load.rebuildFreeList.2

/-- The trunks the next commit writes, in the order they are built. -/
def nextTrunks (p : Pager α) : List Trunk := packTrunks p.frees.length p.frees

/-- The writes of the next commit before its first sync. -/
def dataWrites (p : Pager α) : List (Write α) :=
  (if p.backend.current.len < p.metadata.pageCount then [.resize p.metadata.pageCount] else []) ++
    p.rebuilt.cache.dirtyPages.map fun d => .page d.1 d.2

/-- The meta the next commit installs. -/
def nextMeta (p : Pager α) : Meta := { p.rebuilt.metadata with txnId := p.metadata.txnId + 1 }

/-- The version the next commit makes durable, for the pages the caller calls live. -/
def nextVersion (p : Pager α) (live : Nat → Prop) : Version α where
  metadata := p.nextMeta
  live := live
  content := p.view
  trunks := p.nextTrunks.reverse

/-- The slot the next commit writes its meta to. -/
def nextSlot (p : Pager α) : Nat := 1 - p.activeSlot

def plan (p : Pager α) : CommitPlan α where
  io := p.dataWrites.map IoOp.ofWrite ++
    [.sync, .writeAt p.nextSlot (metaFrame p.nextMeta p.nextSlot), .sync]
  metadata := p.nextMeta
  inactive := p.nextSlot
  deadTrunks := p.trunkIds

theorem rebuilt_eq (p : Pager α) : p.rebuilt = { p.load with
    cache := (stageTrunks p.cache 0 p.nextTrunks).1
    metadata := { p.metadata with
      freelistHead := u64ToOpt (stageTrunks p.cache 0 p.nextTrunks).2
      freelistLen := (p.nextTrunks.flatMap Trunk.ids).length }
    freeSet := p.nextTrunks.flatMap Trunk.ids
    trunks := p.nextTrunks.map Trunk.id } := by
  unfold rebuilt
  rw [rebuildFreeList_eq]
  rfl

/-- Where the free list loads, `commit_begin` returns the plan over the rebuilt pager. -/
theorem commitBegin_eq {p : Pager α}
    (hloads : p.freeLoaded = false → ∃ r, loadFreeList p.backend.current p.metadata = .ok r) :
    commitBegin p = .ok p.plan p.rebuilt := by
  unfold commitBegin
  rw [Lib.bind_of_ok (ensureFreeLoaded_eq hloads), Lib.bind_of_ok (Lib.get_apply _)]
  have hback : p.rebuilt.backend = p.backend := by rw [rebuilt_eq]; rfl
  have hcount : p.rebuilt.metadata.pageCount = p.metadata.pageCount := by rw [rebuilt_eq]
  have htxn : p.rebuilt.metadata.txnId = p.metadata.txnId := by rw [rebuilt_eq]
  have hslot : p.rebuilt.activeSlot = p.activeSlot := by rw [rebuilt_eq]; rfl
  have hio : (if p.rebuilt.backend.current.len < p.rebuilt.metadata.pageCount then
      [IoOp.truncate p.rebuilt.metadata.pageCount] else []) ++
      p.rebuilt.cache.dirtyPages.map (fun d => IoOp.writeAt d.1 d.2) =
      p.dataWrites.map IoOp.ofWrite := by
    unfold dataWrites
    rw [hback, hcount, List.map_append, List.map_map]
    congr 1
    split <;> rfl
  change EStateM.Result.ok _ p.rebuilt = _
  congr 1
  unfold plan nextMeta nextSlot
  rw [← hio, ← hslot, ← htxn]
  rfl

/-- Where the free list loads, `commit` runs that plan to its end. -/
theorem commit_eq {p : Pager α}
    (hloads : p.freeLoaded = false → ∃ r, loadFreeList p.backend.current p.metadata = .ok r) :
    commit p = .ok () (commitEnd p.plan (runIo p.plan.io p.rebuilt)) := by
  unfold commit
  rw [Lib.bind_of_ok (commitBegin_eq hloads)]
  rfl

/-! ## The running pager and its last commit -/

/-- The invariant of a running pager whose last commit was `v`: the file stores `v`, the pages
of `v` still belong to the caller or to the trunk chain, and none of them has staged content. -/
structure Tracks (p : Pager α) (v : Version α) : Prop where
  ok : p.Ok
  synced : p.backend.unsynced = []
  stored : Stored p.backend.durable p.activeSlot v
  count : v.metadata.pageCount ≤ p.metadata.pageCount
  txn : p.metadata.txnId = v.metadata.txnId
  version : p.metadata.formatVersion = formatVersion
  size : p.metadata.pageSize = pageSize
  trunks : p.trunkIds.Perm v.trunkIds
  owned : ∀ id, v.live id → p.Owned id
  clean : ∀ id, v.live id ∨ id ∈ v.trunkIds → ¬ p.IsDirty id

/-- `Tracks` without what it asks of the caller: the file stores `v` and the lists in memory
continue from it, but any page may have staged content. -/
structure Follows (p : Pager α) (v : Version α) : Prop where
  ok : p.Ok
  synced : p.backend.unsynced = []
  stored : Stored p.backend.durable p.activeSlot v
  count : v.metadata.pageCount ≤ p.metadata.pageCount
  txn : p.metadata.txnId = v.metadata.txnId
  version : p.metadata.formatVersion = formatVersion
  size : p.metadata.pageSize = pageSize
  trunks : p.trunkIds.Perm v.trunkIds

theorem Tracks.follows {p : Pager α} {v : Version α} (h : Tracks p v) : Follows p v :=
  ⟨h.ok, h.synced, h.stored, h.count, h.txn, h.version, h.size, h.trunks⟩

theorem Follows.tracks {p : Pager α} {v : Version α} (h : Follows p v)
    (howned : ∀ id, v.live id → p.Owned id)
    (hclean : ∀ id, v.live id ∨ id ∈ v.trunkIds → ¬ p.IsDirty id) : Tracks p v :=
  ⟨h.ok, h.synced, h.stored, h.count, h.txn, h.version, h.size, h.trunks, howned, hclean⟩

section Rebuild

variable {p : Pager α}

/-- Rebuilding partitions the free set into the stored ids and the trunks. -/
theorem frees_perm (p : Pager α) :
    p.frees.Perm (p.nextTrunks.flatMap Trunk.ids ++ p.nextTrunks.map Trunk.id) :=
  packTrunks_pages p.frees

theorem nextTrunks_subset {id : Nat} (h : id ∈ p.nextTrunks.map Trunk.id) : id ∈ p.frees :=
  packTrunks_subset h

theorem nextTrunks_nodup (hp : p.Ok) : (p.nextTrunks.map Trunk.id).Nodup :=
  packTrunks_nodup hp.frees_nodup

theorem rebuilt_staged (hp : p.Ok) : TrunksStaged p.backend.current.frameAt p.cache []
    p.nextTrunks (stageTrunks p.cache 0 p.nextTrunks) :=
  packTrunks_staged hp.coherent hp.frees_nodup

theorem rebuilt_cache (p : Pager α) :
    p.rebuilt.cache = (stageTrunks p.cache 0 p.nextTrunks).1 := by rw [rebuilt_eq]

theorem rebuilt_backend (p : Pager α) : p.rebuilt.backend = p.backend := by
  rw [rebuilt_eq]
  rfl

/-- Rebuilding the free list changes the view of the new trunks only. -/
theorem rebuilt_view (hp : p.Ok) {id : Nat} (h : id ∉ p.nextTrunks.map Trunk.id) :
    p.rebuilt.view id = p.view id := by
  unfold view
  rw [rebuilt_cache, rebuilt_backend]
  exact (rebuilt_staged hp).reads id h

theorem rebuilt_coherent (hp : p.Ok) :
    PageCache.Coherent p.backend.current.frameAt p.rebuilt.cache.entries := by
  rw [rebuilt_cache]
  exact (rebuilt_staged hp).coherent

/-- Every page resident after the rebuild is a data page of the file. -/
theorem rebuilt_resident (hp : p.Ok) {id : Nat}
    (h : PageCache.find p.rebuilt.cache.entries id ≠ none) :
    firstDataPage ≤ id ∧ id < p.metadata.pageCount := by
  rw [rebuilt_cache] at h
  rcases (rebuilt_staged hp).resident id h with h | h
  · exact hp.range id (List.mem_append_left _ (nextTrunks_subset h))
  · obtain ⟨e, he⟩ := Option.ne_none_iff_exists'.mp h
    exact hp.resident id e he

/-- The dirty pages a commit flushes: the new trunks and what the caller staged. -/
theorem mem_dirtyPages_rebuilt (hp : p.Ok) {d : Nat × Frame α}
    (h : d ∈ p.rebuilt.cache.dirtyPages) :
    (d.1 ∈ p.nextTrunks.map Trunk.id ∨ p.IsDirty d.1) ∧
      (firstDataPage ≤ d.1 ∧ d.1 < p.metadata.pageCount) ∧ d.2.id = d.1 ∧
      p.rebuilt.view d.1 = some d.2 := by
  have hcoh := rebuilt_coherent hp
  obtain ⟨e, he, hd, hf⟩ := (PageCache.mem_dirtyPages hcoh.nodup d.1 d.2).mp h
  refine ⟨?_, rebuilt_resident hp (by rw [he]; exact Option.some_ne_none _),
    hf ▸ hcoh.self d.1 e he, ?_⟩
  · have hdirty : PageCache.IsDirty p.rebuilt.cache.entries d.1 := ⟨e, he, hd⟩
    rw [rebuilt_cache] at hdirty
    exact ((rebuilt_staged hp).dirty d.1).mp hdirty
  · unfold view PageCache.reads
    rw [he, ← hf]

/-- The file once every data page of the commit is written. -/
def flushed (p : Pager α) : Image α := p.dataWrites.foldl Image.apply p.backend.current

/-- After the flush the file itself reads as the pager does, and has all its pages. -/
theorem flushed_frameAt (hp : p.Ok) :
    (∀ id, p.flushed.frameAt id = p.rebuilt.view id) ∧
      max p.backend.current.len p.metadata.pageCount ≤ p.flushed.len := by
  have hcoh := rebuilt_coherent hp
  -- the file after it has been extended to the allocation mark
  obtain ⟨g, hg, hgf, hgl⟩ : ∃ g : Image α,
      p.flushed = (p.rebuilt.cache.dirtyPages.map fun d => Write.page d.1 d.2).foldl Image.apply g ∧
      (∀ id, g.frameAt id = p.backend.current.frameAt id) ∧
      max p.backend.current.len p.metadata.pageCount ≤ g.len := by
    unfold flushed dataWrites
    split
    next hlt =>
      refine ⟨p.backend.current.apply (.resize p.metadata.pageCount), rfl,
        fun id => Image.frameAt_resize _ (Nat.le_of_lt hlt), ?_⟩
      rw [Image.len_apply_resize]
      omega
    next hlt => exact ⟨p.backend.current, rfl, fun _ => rfl, by omega⟩
  obtain ⟨hlen, hwritten, hrest⟩ := frameAt_writes g p.rebuilt.cache.dirtyPages
    (fun d hd => (mem_dirtyPages_rebuilt hp hd).2.2.1)
    (fun d hd => by have := (mem_dirtyPages_rebuilt hp hd).2.1.2; omega)
    (PageCache.dirtyPages_nodup hcoh.nodup)
  refine ⟨fun id => ?_, by rw [hg, hlen]; exact hgl⟩
  rw [hg]
  by_cases hid : id ∈ p.rebuilt.cache.dirtyPages.map Prod.fst
  · obtain ⟨d, hd, rfl⟩ := List.mem_map.mp hid
    rw [hwritten d hd, (mem_dirtyPages_rebuilt hp hd).2.2.2]
  · rw [hrest id hid, hgf id]
    unfold view PageCache.reads
    rw [rebuilt_backend]
    cases hfind : PageCache.find p.rebuilt.cache.entries id with
    | none => rfl
    | some e =>
        cases hdirty : e.dirty with
        | false => exact hcoh.clean id e hfind hdirty
        | true =>
            have hmem := (PageCache.mem_dirtyPages hcoh.nodup _ _).mpr ⟨e, hfind, hdirty, rfl⟩
            exact absurd (List.mem_map_of_mem (f := Prod.fst) hmem) hid

end Rebuild

/-- The file a finished commit leaves. -/
def Tracks.committed (p : Pager α) : Image α :=
  p.flushed.apply (.page p.nextSlot (metaFrame p.nextMeta p.nextSlot))

/-- The I/O of a commit that starts from a synced file: flushed at its first sync, committed at its
last. -/
theorem run_plan_of_synced {p : Pager α} (hsynced : p.backend.unsynced = []) :
    (p.plan.io.take (p.dataWrites.length + 1)).foldl IoOp.run p.rebuilt.backend =
        Backend.ofImage p.flushed ∧
      p.plan.io.foldl IoOp.run p.rebuilt.backend = Backend.ofImage (Tracks.committed p) := by
  have hdata : (p.dataWrites.map IoOp.ofWrite).foldl IoOp.run p.rebuilt.backend =
      { durable := p.backend.durable, unsynced := p.dataWrites } := by
    rw [rebuilt_backend, run_writes, hsynced, List.nil_append]
  have hflush : IoOp.run { durable := p.backend.durable, unsynced := p.dataWrites } .sync =
      Backend.ofImage p.flushed := by
    unfold flushed
    rw [Backend.current_of_synced hsynced]
    rfl
  constructor
  · have : p.plan.io.take (p.dataWrites.length + 1) =
        p.dataWrites.map IoOp.ofWrite ++ [IoOp.sync] := by
      rw [plan, List.take_append, List.length_map, List.take_of_length_le (by simp)]
      simp
    rw [this, List.foldl_append, hdata]
    exact hflush
  · rw [plan, List.foldl_append, hdata, List.foldl_cons, hflush]
    rfl

namespace Follows

variable {p : Pager α} {v : Version α} {live : Nat → Prop}

theorem current_eq (h : Follows p v) : p.backend.current = p.backend.durable :=
  Backend.current_of_synced h.synced

/-- The commit writes the meta slot that is not active. -/
theorem nextSlot_lt (h : Follows p v) : p.nextSlot < firstDataPage ∧ p.nextSlot ≠ p.activeSlot ∧
    1 - p.nextSlot = p.activeSlot ∧ 1 - p.activeSlot = p.nextSlot := by
  have := h.stored.isSlot
  have hfirst : firstDataPage = 2 := rfl
  unfold nextSlot
  omega

/-- The flush leaves the active meta slot alone: no data page is one of the two slots. -/
theorem flushed_active (h : Follows p v) :
    p.flushed.frameAt p.activeSlot = p.backend.durable.frameAt p.activeSlot := by
  have hslot : p.activeSlot < firstDataPage := by
    have := h.stored.isSlot
    have hfirst : firstDataPage = 2 := rfl
    omega
  rw [(flushed_frameAt h.ok).1]
  unfold view PageCache.reads
  cases hfind : PageCache.find p.rebuilt.cache.entries p.activeSlot with
  | some e =>
      have := (rebuilt_resident h.ok (by rw [hfind]; exact Option.some_ne_none _)).1
      omega
  | none => rw [rebuilt_backend, h.current_eq]

/-- The version a commit writes is sound, if its live pages are owned. -/
theorem next_sound (h : Follows p v) (hlive : ∀ id, live id → p.Owned id)
    (hroot : p.metadata.catalogRoot ≠ some 0) : (p.nextVersion live).Sound := by
  have hperm := p.frees_perm
  have hrev : ((p.nextVersion live).free ++ (p.nextVersion live).trunkIds).Perm p.frees := by
    refine List.Perm.trans ?_ hperm.symm
    refine List.Perm.append ?_ ?_
    · exact (List.reverse_perm _).flatMap_right _
    · exact (List.reverse_perm _).map _
  have hcount : p.nextMeta.pageCount = p.metadata.pageCount := by
    rw [nextMeta, rebuilt_eq]
  have hrange : ∀ id ∈ p.frees, firstDataPage ≤ id ∧ id < p.metadata.pageCount :=
    fun id hid => h.ok.range id (List.mem_append_left _ hid)
  -- the fields of a sound version in order: the meta, its trunks, the free pages, the live ones
  refine ⟨⟨?_, ?_, ?_, ?_, ?_⟩, ⟨fun t ht => ?_, fun t ht => ?_, ?_⟩, ?_, fun id hid => ?_,
    fun id hid => ?_, fun id hid => ?_⟩
  · change p.nextMeta.formatVersion = _
    rw [nextMeta, rebuilt_eq]
    exact h.version
  · change p.nextMeta.pageSize = _
    rw [nextMeta, rebuilt_eq]
    exact h.size
  · change _ ≤ p.nextMeta.pageCount
    rw [hcount]
    exact h.ok.count
  · change p.nextMeta.freelistHead ≠ _
    rw [nextMeta, rebuilt_eq]
    simp only [u64ToOpt]
    split
    · simp
    next hne => simpa using hne
  · change p.nextMeta.catalogRoot ≠ _
    rw [nextMeta, rebuilt_eq]
    exact hroot
  · have hmem : t.id ∈ p.nextTrunks.map Trunk.id :=
      List.mem_map_of_mem (List.mem_reverse.mp ht)
    change firstDataPage ≤ t.id ∧ t.id < p.nextMeta.pageCount
    rw [hcount]
    exact hrange t.id (nextTrunks_subset hmem)
  · exact packTrunks_capacity t (List.mem_reverse.mp ht)
  · change (p.nextTrunks.reverse.map Trunk.id).Nodup
    rw [List.map_reverse]
    exact (List.reverse_perm _).nodup_iff.mpr (nextTrunks_nodup h.ok)
  · exact hrev.nodup_iff.mpr h.ok.frees_nodup
  · change firstDataPage ≤ id ∧ id < p.nextMeta.pageCount
    rw [hcount]
    exact hrange id (hrev.subset hid)
  · obtain ⟨hlo, hhi, -, -⟩ := hlive id hid
    change firstDataPage ≤ id ∧ id < p.nextMeta.pageCount
    rw [hcount]
    exact ⟨hlo, hhi⟩
  · exact fun hmem => (hlive id hid).2.2.1 (hrev.subset hmem)

/-- The pages of the next version are in the file once it is flushed. -/
theorem next_intact (h : Follows p v) (hlive : ∀ id, live id → p.Owned id) :
    (p.nextVersion live).Intact p.flushed.frameAt := by
  obtain ⟨hframe, -⟩ := flushed_frameAt h.ok
  refine ⟨fun id hid => ?_, (stageTrunks p.cache 0 p.nextTrunks).2, ?_, ?_⟩
  · rw [hframe id]
    exact rebuilt_view h.ok fun ht => (hlive id hid).2.2.1 (nextTrunks_subset ht)
  · change p.nextMeta.freelistHead = _
    rw [nextMeta, rebuilt_eq]
  · have hchain := (rebuilt_staged h.ok).chain
    rw [List.append_nil] at hchain
    refine hchain.congr fun t _ => ?_
    rw [hframe t.id]
    unfold view
    rw [rebuilt_cache, rebuilt_backend]

theorem frameAt_committed {id : Nat} (hid : id ≠ p.nextSlot)
    (hlt : id < p.flushed.len) : (Tracks.committed p).frameAt id = p.flushed.frameAt id :=
  Image.frameAt_page_ne _ _ (fun heq => hid heq.symm) hlt

/-- Once its meta is written too, the file stores the next version. -/
theorem stored_committed (h : Follows p v) (hlive : ∀ id, live id → p.Owned id)
    (hroot : p.metadata.catalogRoot ≠ some 0) :
    Stored (Tracks.committed p) p.nextSlot (p.nextVersion live) := by
  obtain ⟨hslot, hne, hother, -⟩ := h.nextSlot_lt
  obtain ⟨-, hlen⟩ := flushed_frameAt h.ok
  have hsound := h.next_sound hlive hroot
  have hcount : p.nextMeta.pageCount = p.metadata.pageCount := by
    rw [nextMeta, rebuilt_eq]
  -- the other slot has the old meta, whose transaction is older
  have hactive : p.flushed.frameAt p.activeSlot = some (metaFrame v.metadata p.activeSlot) :=
    h.flushed_active.trans h.stored.here
  have hpc := h.ok.count
  have hpages : ∀ id, firstDataPage ≤ id → id < p.metadata.pageCount →
      (Tracks.committed p).frameAt id = p.flushed.frameAt id := fun id hlo hhi =>
    frameAt_committed (by omega) (by omega)
  refine ⟨by have := h.stored.isSlot; unfold nextSlot; omega, ?_, ?_, ?_, ?_, hsound⟩
  · exact Image.frameAt_page_self p.flushed (f := metaFrame p.nextMeta p.nextSlot)
  · intro m hm
    rw [hother] at hm
    have hlt : p.activeSlot < p.flushed.len := by
      have := h.stored.isSlot
      have hfirst : firstDataPage = 2 := rfl
      omega
    rw [readMeta_congr (frameAt_committed (Ne.symm hne) hlt)] at hm
    rw [readMeta_metaFrame h.stored.sound.valid hactive] at hm
    cases hm
    change _ < p.nextMeta.txnId
    rw [nextMeta, ← h.txn]
    exact Nat.lt_succ_self _
  · change p.nextMeta.pageCount ≤ max p.flushed.len _
    omega
  · refine (h.next_intact hlive).congr fun id hid => ?_
    rcases hid with hid | hid
    · exact hpages id (hsound.liveRange id hid).1 (hcount ▸ (hsound.liveRange id hid).2)
    · have := hsound.range id (List.mem_append_right _ hid)
      exact hpages id this.1 (hcount ▸ this.2)

/-- Up to its first sync the plan flushes the data, and at its end the meta is durable too. -/
theorem run_plan (h : Follows p v) :
    (p.plan.io.take (p.dataWrites.length + 1)).foldl IoOp.run p.rebuilt.backend =
        Backend.ofImage p.flushed ∧
      p.plan.io.foldl IoOp.run p.rebuilt.backend = Backend.ofImage (Tracks.committed p) :=
  run_plan_of_synced h.synced

end Follows

namespace Tracks

variable {p : Pager α} {v : Version α} {live : Nat → Prop}

/-- Nothing the commit flushes belongs to the last version. -/
theorem writes_safe (h : Tracks p v) : ∀ w ∈ p.dataWrites, ∀ id ∈ w.target,
    firstDataPage ≤ id ∧ ¬ v.live id ∧ id ∉ v.trunkIds := by
  intro w hw id hid
  unfold dataWrites at hw
  rcases List.mem_append.mp hw with hw | hw
  · split at hw
    · rw [List.mem_singleton.mp hw] at hid
      cases hid
    · cases hw
  · obtain ⟨d, hd, rfl⟩ := List.mem_map.mp hw
    cases hid
    obtain ⟨hwhich, ⟨hlo, -⟩, -, -⟩ := mem_dirtyPages_rebuilt h.ok hd
    refine ⟨hlo, ?_⟩
    rcases hwhich with htrunk | hdirty
    · have hfree := nextTrunks_subset htrunk
      exact ⟨fun hl => (h.owned d.1 hl).2.2.1 hfree,
        fun ht => h.ok.not_mem_trunks hfree (h.trunks.symm.subset ht)⟩
    · exact ⟨fun hl => h.clean d.1 (.inl hl) hdirty, fun ht => h.clean d.1 (.inr ht) hdirty⟩

/-- Only the first data write may resize the file, and none shrinks it. -/
theorem dataWrites_shape (p : Pager α) : p.dataWrites.Pairwise (fun _ w => w.target ≠ none) ∧
    ∀ w ∈ p.dataWrites, w.Extends p.backend.current.len := by
  have hpages : ∀ w ∈ p.rebuilt.cache.dirtyPages.map (fun d => Write.page d.1 d.2),
      w.target ≠ none ∧ w.Extends p.backend.current.len := by
    intro w hw
    obtain ⟨d, -, rfl⟩ := List.mem_map.mp hw
    exact ⟨Option.some_ne_none _, trivial⟩
  unfold dataWrites
  split
  next hlt =>
    refine ⟨List.pairwise_cons.mpr ⟨fun w hw => (hpages w hw).1, ?_⟩, fun w hw => ?_⟩
    · exact List.pairwise_of_forall_mem_list fun _ _ w hw => (hpages w hw).1
    · rcases List.mem_cons.mp hw with rfl | hw
      · exact Nat.le_of_lt hlt
      · exact (hpages w hw).2
  next hlt =>
    rw [List.nil_append]
    exact ⟨List.pairwise_of_forall_mem_list fun _ _ w hw => (hpages w hw).1,
      fun w hw => (hpages w hw).2⟩

/-- A crash before the first sync leaves the last version, whatever it keeps of the data. -/
theorem stored_of_data (h : Tracks p v) (k : Nat) (fates : List Fate) :
    Stored (p.backend.durable.afterCrash (p.dataWrites.take k) fates) p.activeSlot v := by
  obtain ⟨hpair, hext⟩ := dataWrites_shape p
  rw [h.follows.current_eq] at hext
  exact h.stored.afterCrash fates (fun w hw => h.writes_safe w (List.mem_of_mem_take hw))
    (hpair.sublist (List.take_sublist ..)) fun w hw => hext w (List.mem_of_mem_take hw)

theorem stored_flushed (h : Tracks p v) : Stored p.flushed p.activeSlot v := by
  have := h.stored_of_data p.dataWrites.length (p.dataWrites.map fun _ => .kept)
  rw [List.take_length, afterCrash_kept, ← h.follows.current_eq] at this
  exact this

/-- A crash after the data is synced and before the meta is: the torn or lost meta leaves the
last version in force, the kept one the new. -/
theorem stored_of_meta (h : Tracks p v) (hlive : ∀ id, live id → p.Owned id)
    (hroot : p.metadata.catalogRoot ≠ some 0) (fates : List Fate) :
    Stored (p.flushed.afterCrash [.page p.nextSlot (metaFrame p.nextMeta p.nextSlot)] fates)
        p.activeSlot v ∨
      Stored (p.flushed.afterCrash [.page p.nextSlot (metaFrame p.nextMeta p.nextSlot)] fates)
        p.nextSlot (p.nextVersion live) := by
  have hold := h.stored_flushed
  -- the one page in flight is the meta of the other slot: lost or torn, the old one is found
  match fates with
  | [] => exact .inl hold
  | .lost :: fs => exact .inl (by cases fs <;> exact hold)
  | .kept :: fs => exact .inr (by cases fs <;> exact h.follows.stored_committed hlive hroot)
  | .torn :: fs =>
      refine .inl ?_
      obtain ⟨hslot, hne, -, hinactive⟩ := h.follows.nextSlot_lt
      have hlen := hold.len
      have hcount := hold.sound.valid.count
      have hfirst : firstDataPage = 2 := rfl
      obtain ⟨i, hi⟩ : ∃ i, i = p.flushed.survive
        (.page p.nextSlot (metaFrame p.nextMeta p.nextSlot)) .torn := ⟨_, rfl⟩
      have hile : p.flushed.len ≤ i.len := by
        rw [hi]
        exact Nat.le_max_left ..
      -- a torn write of that slot leaves every frame of the old version alone
      have hkeep : ∀ id, id ≠ p.nextSlot → id < p.flushed.len →
          i.frameAt id = p.flushed.frameAt id := by
        intro id hid hlt
        rw [hi]
        refine (Image.frameAt_survive (w := .page p.nextSlot _) .torn (fun ht => hid ?_) trivial
          hlt).1
        exact (Option.some_inj.mp ht).symm
      have hcrash : p.flushed.afterCrash
          [.page p.nextSlot (metaFrame p.nextMeta p.nextSlot)] (.torn :: fs) = i := by
        rw [hi]
        cases fs <;> rfl
      rw [hcrash]
      refine hold.congr hile (hkeep _ (Ne.symm hne) (by have := hold.isSlot; omega))
        (fun m hm => ?_) fun id hid => ?_
      · -- the torn slot holds no meta at all
        rw [hinactive] at hm
        obtain ⟨f, image, hf, -, -⟩ := readMeta_eq_ok.mp hm
        rw [hi] at hf
        unfold Image.frameAt Image.survive at hf
        simp at hf
      · rcases hid with hid | hid
        · have := hold.sound.liveRange id hid
          exact hkeep id (by omega) (by omega)
        · have := hold.sound.range id (List.mem_append_right _ hid)
          exact hkeep id (by omega) (by omega)

/-- **A commit is atomic.** Interrupted after any of its I/O operations, with any subset of the
unsynced writes kept, it leaves a file that stores the last version or the new one. -/
theorem crash (h : Tracks p v) (hlive : ∀ id, live id → p.Owned id)
    (hroot : p.metadata.catalogRoot ≠ some 0) (k : Nat) (fates : List Fate) :
    Stored (((p.plan.io.take k).foldl IoOp.run p.rebuilt.backend).crash fates) p.activeSlot v ∨
      Stored (((p.plan.io.take k).foldl IoOp.run p.rebuilt.backend).crash fates) p.nextSlot
        (p.nextVersion live) := by
  obtain ⟨hsync, hall⟩ := h.follows.run_plan
  have hlen : p.plan.io.length = p.dataWrites.length + 3 := by simp [plan]
  rcases Nat.lt_or_ge p.dataWrites.length k with hk | hk
  · rcases Nat.lt_or_ge (p.dataWrites.length + 2) k with hk' | hk'
    · -- everything is synced: the new version is in force
      rw [List.take_of_length_le (by omega), hall]
      exact .inr (by cases fates <;> exact h.follows.stored_committed hlive hroot)
    · obtain rfl | rfl : k = p.dataWrites.length + 1 ∨ k = p.dataWrites.length + 2 := by omega
      · rw [hsync]
        exact .inl (by cases fates <;> exact h.stored_flushed)
      · have htake : p.plan.io.take (p.dataWrites.length + 2) =
            p.plan.io.take (p.dataWrites.length + 1) ++
              [.writeAt p.nextSlot (metaFrame p.nextMeta p.nextSlot)] := by
          rw [List.take_add_one]
          simp [plan]
        rw [htake, List.foldl_append, hsync]
        exact h.stored_of_meta hlive hroot fates
  · -- only data pages were written, none of them synced
    have htake : p.plan.io.take k = (p.dataWrites.take k).map IoOp.ofWrite := by
      rw [plan, List.take_append_of_le_length (by simpa using hk), List.map_take]
    rw [htake, rebuilt_backend, run_writes, h.synced, List.nil_append]
    exact .inl (h.stored_of_data k fates)

end Tracks

/-- The pager after a finished commit. -/
def afterCommit (p : Pager α) : Pager α := commitEnd p.plan (runIo p.plan.io p.rebuilt)

/-- What a finished commit does to the running pager. -/
structure Commits (p p' : Pager α) : Prop where
  view : ∀ id, p.Owned id → p'.view id = p.view id
  pages : (p'.frees ++ p'.trunkIds).Perm (p.frees ++ p.trunkIds)
  count : p'.metadata.pageCount = p.metadata.pageCount
  root : p'.metadata.catalogRoot = p.metadata.catalogRoot
  txn : p'.metadata.txnId = p.metadata.txnId + 1
  clean : ∀ id, ¬ p'.IsDirty id
  log : p'.allocLog = p.allocLog

theorem Commits.owned_iff {p p' : Pager α} (h : Commits p p') {id : Nat} :
    p'.Owned id ↔ p.Owned id := by
  have hmem : id ∈ p'.frees ++ p'.trunkIds ↔ id ∈ p.frees ++ p.trunkIds := h.pages.mem_iff
  rw [List.mem_append, List.mem_append] at hmem
  unfold Owned
  rw [h.count]
  tauto

section AfterCommit

variable {p : Pager α}

/-- After a commit the old trunks are free, with the pages that the new ones list. -/
theorem afterCommit_frees (p : Pager α) :
    p.afterCommit.frees = p.nextTrunks.flatMap Trunk.ids ++ p.trunkIds := by
  unfold frees lists
  have hloaded : p.afterCommit.freeLoaded = true := by
    change p.rebuilt.freeLoaded = true
    rw [rebuilt_eq]
    rfl
  rw [if_pos hloaded]
  change p.rebuilt.freeSet ++ p.trunkIds = _
  rw [rebuilt_eq]

/-- After a commit the trunks are the ones it wrote. -/
theorem afterCommit_trunkIds (p : Pager α) :
    p.afterCommit.trunkIds = p.nextTrunks.map Trunk.id := by
  unfold trunkIds lists
  have hloaded : p.afterCommit.freeLoaded = true := by
    change p.rebuilt.freeLoaded = true
    rw [rebuilt_eq]
    rfl
  rw [if_pos hloaded]
  change p.rebuilt.trunks = _
  rw [rebuilt_eq]

/-- A commit neither loses a page nor makes one: what was free or a trunk is so after it. -/
theorem afterCommit_pages (p : Pager α) : (p.afterCommit.frees ++ p.afterCommit.trunkIds).Perm
    (p.frees ++ p.trunkIds) := by
  have hperm := p.frees_perm
  rw [afterCommit_frees, afterCommit_trunkIds]
  rw [List.perm_iff_count] at hperm ⊢
  intro a
  have := hperm a
  simp only [List.count_append] at this ⊢
  omega

theorem afterCommit_count (p : Pager α) :
    p.afterCommit.metadata.pageCount = p.metadata.pageCount := by
  change p.rebuilt.metadata.pageCount = _
  rw [rebuilt_eq]

/-- A commit keeps the pager in order and shows the client the pages it owns as before. -/
theorem Follows.afterCommit_spec {v : Version α} (h : Follows p v) :
    p.afterCommit.Ok ∧ Commits p p.afterCommit := by
  have hp := h.ok
  have hcoh := rebuilt_coherent hp
  have hpages := p.afterCommit_pages
  have hcount := p.afterCommit_count
  have hfirst : firstDataPage = 2 := rfl
  obtain ⟨hframe, hlen⟩ := flushed_frameAt hp
  have hslot := h.nextSlot_lt.1
  have hcurrent : p.afterCommit.backend.current = Tracks.committed p := by
    change (p.plan.io.foldl IoOp.run p.rebuilt.backend).current = _
    rw [h.run_plan.2]
    rfl
  have hnew : ∀ id, firstDataPage ≤ id → id < p.metadata.pageCount →
      (Tracks.committed p).frameAt id = p.rebuilt.view id := by
    intro id hlo hhi
    rw [Follows.frameAt_committed (by omega) (by omega), hframe id]
  have hentries : p.afterCommit.cache = p.rebuilt.cache.clearDirty := rfl
  -- clearing the dirty bits is sound since the file has the frames now
  have hcohNew : PageCache.Coherent (Tracks.committed p).frameAt
      p.afterCommit.cache.entries := by
    rw [hentries]
    refine PageCache.clearDirty_spec hcoh (fun id e he hd => ?_) fun id hnd hres => ?_
    · obtain ⟨hlo, hhi⟩ := rebuilt_resident hp (by rw [he]; exact Option.some_ne_none _)
      rw [hnew id hlo hhi]
      unfold view PageCache.reads
      rw [he]
    · obtain ⟨hlo, hhi⟩ := rebuilt_resident hp hres
      rw [hnew id hlo hhi]
      obtain ⟨e, he⟩ := Option.ne_none_iff_exists'.mp hres
      unfold view PageCache.reads
      rw [he]
      refine (hcoh.clean id e he ?_).symm
      cases hd : e.dirty with
      | false => rfl
      | true => exact absurd ⟨e, he, hd⟩ hnd
  refine ⟨⟨?_, ?_, ?_, ?_, ?_, ?_⟩, ⟨?_, hpages, hcount, ?_, ?_, ?_, ?_⟩⟩
  · intro hl
    change p.rebuilt.freeLoaded = false at hl
    rw [rebuilt_eq] at hl
    cases hl
  · exact hpages.nodup_iff.mpr hp.nodup
  · intro id hid
    rw [hcount]
    exact hp.range id (hpages.subset hid)
  · rw [hcount]
    exact hp.count
  · rw [hcurrent]
    exact hcohNew
  · intro id e he
    rw [hentries, PageCache.find_clearDirty] at he
    obtain ⟨e', he', -⟩ := Option.map_eq_some_iff.mp he
    rw [hcount]
    exact rebuilt_resident hp (by rw [he']; exact Option.some_ne_none _)
  -- a page the client owns is no trunk, old or new, so the rebuild does not touch it
  · intro id howned
    have hold : p.rebuilt.view id = p.view id :=
      rebuilt_view hp fun ht => howned.2.2.1 (nextTrunks_subset ht)
    rw [← hold]
    unfold view
    rw [hcurrent, hentries]
    unfold PageCache.reads
    rw [PageCache.find_clearDirty]
    cases hf : PageCache.find p.rebuilt.cache.entries id with
    | some e => rfl
    | none =>
        have := hnew id howned.1 howned.2.1
        unfold view PageCache.reads at this
        rw [hf] at this
        exact this
  · change p.rebuilt.metadata.catalogRoot = _
    rw [rebuilt_eq]
  · rfl
  · exact fun id => PageCache.not_isDirty_clearDirty p.rebuilt.cache id
  · change p.rebuilt.allocLog = _
    rw [rebuilt_eq]
    rfl

/-- A finished commit makes the new version durable and goes on from it. -/
theorem Follows.commit {v : Version α} (h : Follows p v) (live : Nat → Prop)
    (hlive : ∀ id, live id → p.Owned id) (hroot : p.metadata.catalogRoot ≠ some 0) :
    Pager.commit p = .ok () p.afterCommit ∧ Commits p p.afterCommit ∧
      Follows p.afterCommit (p.nextVersion live) := by
  obtain ⟨hok, hcommits⟩ := h.afterCommit_spec
  have hback : p.afterCommit.backend = Backend.ofImage (Tracks.committed p) := h.run_plan.2
  refine ⟨commit_eq h.ok.loads, hcommits, hok, ?_, ?_, ?_, rfl, ?_, ?_, ?_⟩
  · rw [hback]
    rfl
  · rw [hback]
    exact h.stored_committed hlive hroot
  · change p.rebuilt.metadata.pageCount ≤ p.rebuilt.metadata.pageCount
    exact Nat.le_refl _
  · change p.rebuilt.metadata.formatVersion = _
    rw [rebuilt_eq]
    exact h.version
  · change p.rebuilt.metadata.pageSize = _
    rw [rebuilt_eq]
    exact h.size
  · rw [afterCommit_trunkIds]
    exact ((List.reverse_perm _).map _).symm

/-- After a commit nothing is staged, and the caller still owns the live pages. -/
theorem Tracks.commit {v : Version α} (h : Tracks p v) (live : Nat → Prop)
    (hlive : ∀ id, live id → p.Owned id) (hroot : p.metadata.catalogRoot ≠ some 0) :
    Pager.commit p = .ok () p.afterCommit ∧ Commits p p.afterCommit ∧
      Tracks p.afterCommit (p.nextVersion live) := by
  obtain ⟨hrun, hcommits, hnext⟩ := h.follows.commit live hlive hroot
  exact ⟨hrun, hcommits, hnext.tracks (fun id hid => hcommits.owned_iff.mpr (hlive id hid))
    fun id _ => hcommits.clean id⟩

end AfterCommit

end Pager

end Edb
