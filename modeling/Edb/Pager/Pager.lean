import Edb.Pager.Cache
import Edb.Pager.Backend

/-!
# The pager

Paged access to one backing file. Mutations (`alloc`, `free`, `writePage`) are staged in
memory and made durable by `commit`, which writes the dirty pages, syncs, writes the new meta
to the inactive slot and syncs again.

The free set is authoritative in memory; the trunk chain on disk is a serialization of it,
rebuilt at every commit into pages drawn from the free set itself, never into a page of the
previous chain. The in-memory operations cannot fail on I/O here; a crash is modelled on the
file (`Backend.crash`), between any two of the I/O operations `commit` performs.
-/

namespace Edb

/-- The state behind the pager's lock, with the file it works on. -/
structure Pager (α : Type) where
  backend : Backend α
  cache : PageCache α
  /-- The meta of the last commit, with the changes staged for the next one. -/
  metadata : Meta
  /-- The meta slot (0 or 1) currently holding committed state. -/
  activeSlot : Nat
  /-- When present, records every page `alloc` hands out. -/
  allocLog : Option (List Nat)
  /-- Free (allocatable) page ids. -/
  freeSet : List Nat
  /-- The pages serving as the durable trunk chain. -/
  trunks : List Nat
  /-- Whether `freeSet` and `trunks` have been loaded from the trunk chain. -/
  freeLoaded : Bool
  /-- The transaction id of the last successful commit. -/
  txnId : Nat

/-- A pager operation: it may fail, and keeps the state it reached. -/
abbrev PagerM (α β : Type) := EStateM PagerError (Pager α) β

variable {α : Type}

/-! ## Opening -/

def metaFrame (m : Meta) (slot : Nat) : Frame α where
  id := slot
  body := .metaPage m.encode

def readMeta (i : Image α) (slot : Nat) : Except PagerError Meta :=
  match i.readAt slot with
  | .error e => .error e
  | .ok f =>
      match f.body with
      | .metaPage image => Meta.decode image slot
      | _ => .error (.corruption (.badMeta slot))

namespace Pager

/-- Create a fresh database on an empty backend: the initial meta goes to slot 0, slot 1 stays
zeroed (invalid) so that the first commit writes it. -/
def create (cacheBytes : Nat) : Pager α where
  backend :=
    (((Backend.ofImage Image.empty).truncate firstDataPage).writeAt 0
      (metaFrame Meta.initial 0)).sync
  cache := PageCache.new cacheBytes
  metadata := Meta.initial
  activeSlot := 0
  allocLog := none
  freeSet := []
  trunks := []
  freeLoaded := true
  txnId := Meta.initial.txnId

/-- The pager on a file whose committed state is the meta of a slot. The free list is loaded on
the first write. -/
def adopt (i : Image α) (cacheBytes : Nat) (m : Meta) (slot : Nat) : Pager α where
  backend := Backend.ofImage i
  cache := PageCache.new cacheBytes
  metadata := m
  activeSlot := slot
  allocLog := none
  freeSet := []
  trunks := []
  freeLoaded := false
  txnId := m.txnId

/-- Open an existing database: the valid slot with the highest transaction id is adopted, ties
favouring slot 0. -/
def openImage (i : Image α) (cacheBytes : Nat) : Except PagerError (Pager α) :=
  if i.len < firstDataPage then .error (.corruption .noValidMeta)
  else
    match readMeta i 0, readMeta i 1 with
    | .ok a, .ok b =>
        if b.txnId > a.txnId then .ok (adopt i cacheBytes b 1) else .ok (adopt i cacheBytes a 0)
    | .ok a, .error _ => .ok (adopt i cacheBytes a 0)
    | .error _, .ok b => .ok (adopt i cacheBytes b 1)
    | .error _, .error _ => .error (.corruption .noValidMeta)

end Pager

/-! ## The free list -/

/-- Walk the trunk chain from `head`. The chain may not revisit a trunk, so `pageCount` links
are enough for any chain the walk accepts. -/
def loadFreeLoop (i : Image α) (pageCount : Nat) :
    Nat → Option Nat → List Nat → List Nat → Except PagerError (List Nat × List Nat)
  | _, none, free, trunks => .ok (free, trunks)
  | 0, some id, _, _ => .error (.corruption (.freelistCycle id))
  | fuel + 1, some id, free, trunks =>
      if id < firstDataPage ∨ id ≥ pageCount then
        .error (.corruption (.freelistOutOfRange id))
      else if id ∈ trunks then .error (.corruption (.freelistCycle id))
      else
        match i.readAt id with
        | .error e => .error e
        | .ok f =>
            match f.body with
            | .freelist next ids =>
                if ids.length > freelistCapacity then
                  .error (.corruption (.freelistBadCount id))
                else
                  loadFreeLoop i pageCount fuel (u64ToOpt next) (free ++ ids) (trunks ++ [id])
            | _ => .error (.corruption (.freelistBadType id))

/-- The free ids the committed trunk chain stores, and the trunk pages themselves. -/
def loadFreeList (i : Image α) (m : Meta) : Except PagerError (List Nat × List Nat) :=
  loadFreeLoop i m.pageCount m.pageCount m.freelistHead [] []

/-- What `rebuildFreeList` has produced so far. -/
structure Rebuild (α : Type) where
  stored : List Nat
  newTrunks : List Nat
  head : Nat
  cache : PageCache α

/-- Each container drawn from the pool stores up to a trunk's capacity of the remaining ids;
the container itself is spent as structure. -/
def rebuildLoop : Nat → List Nat → Rebuild α → Rebuild α
  | 0, _, acc => acc
  | fuel + 1, pool, acc =>
      match pool.getLast? with
      | none => acc
      | some container =>
          let pool := pool.dropLast
          let take := min pool.length freelistCapacity
          let ids := pool.drop (pool.length - take)
          rebuildLoop fuel (pool.take (pool.length - take)) {
            stored := acc.stored ++ ids
            newTrunks := acc.newTrunks ++ [container]
            head := container
            cache := acc.cache.insert container
              { id := container, body := .freelist acc.head ids } true }

namespace Pager

/-- Serialize the free set into a fresh trunk chain, staged dirty in the cache, and point the
staged meta at it. Returns the superseded trunks. -/
def rebuildFreeList (p : Pager α) : List Nat × Pager α :=
  let r := rebuildLoop p.freeSet.length p.freeSet
    { stored := [], newTrunks := [], head := 0, cache := p.cache }
  (p.trunks, { p with
    cache := r.cache
    metadata := { p.metadata with
      freelistHead := u64ToOpt r.head
      freelistLen := r.stored.length }
    freeSet := r.stored
    trunks := r.newTrunks })

/-! ## Operations -/

/-- Recover the free set from the trunk chain on first write. -/
def ensureFreeLoaded : PagerM α Unit := do
  let p ← get
  if p.freeLoaded then pure ()
  else
    match loadFreeList p.backend.current p.metadata with
    | .error e => throw e
    | .ok (free, trunks) => set { p with freeSet := free, trunks := trunks, freeLoaded := true }

def inRange (id : Nat) : PagerM α Unit := do
  let p ← get
  if id < firstDataPage ∨ id ≥ p.metadata.pageCount then
    throw (.pageOutOfRange id p.metadata.pageCount)
  else pure ()

/-- Fetch a frame from the cache, or read and verify it from the backend. -/
def fetch (id : Nat) : PagerM α (Frame α) := do
  let p ← get
  match p.cache.get id with
  | (some f, cache) =>
      set { p with cache := cache }
      pure f
  | (none, cache) =>
      match p.backend.current.readAt id with
      | .error e =>
          set { p with cache := cache }
          throw e
      | .ok f =>
          set { p with cache := cache.insert id f false }
          pure f

/-- Read a data page, verifying its checksum and self-id. -/
def readPage (id : Nat) : PagerM α (Frame α) := do
  inRange id
  fetch id

/-- Stage a full-page write. -/
def writePage [Payload α] (id : Nat) (payload : α) : PagerM α Unit := do
  inRange id
  if Payload.len payload > pagePayloadSize then
    throw (.payloadTooLarge (Payload.len payload) pagePayloadSize)
  else
    modify fun p => { p with cache := p.cache.insert id { id := id, body := .data payload } true }

/-- Allocate a page id, reusing a free page when one is available, else extending the file's
high-water mark. -/
def alloc : PagerM α Nat := do
  ensureFreeLoaded
  let p ← get
  match p.freeSet.getLast? with
  | some id =>
      set { p with freeSet := p.freeSet.dropLast, allocLog := p.allocLog.map (· ++ [id]) }
      pure id
  | none =>
      let id := p.metadata.pageCount
      set { p with
        metadata := { p.metadata with pageCount := id + 1 }
        allocLog := p.allocLog.map (· ++ [id]) }
      pure id

/-- Return a page to the free set for later reuse. -/
def free (id : Nat) : PagerM α Unit := do
  inRange id
  ensureFreeLoaded
  modify fun p => { p with freeSet := p.freeSet ++ [id] }

def beginAllocRecording (p : Pager α) : Pager α := { p with allocLog := some [] }

/-- Stop recording allocations and return the pages recorded. -/
def takeAllocRecording (p : Pager α) : List Nat × Pager α :=
  (p.allocLog.getD [], { p with allocLog := none })

def setCatalogRoot (root : Option Nat) (p : Pager α) : Pager α :=
  { p with metadata := { p.metadata with catalogRoot := root } }

end Pager

/-! ## Commit -/

/-- One I/O operation of a commit. -/
inductive IoOp (α : Type) where
  | truncate (len : Nat)
  | writeAt (id : Nat) (frame : Frame α)
  | sync

def IoOp.run (b : Backend α) : IoOp α → Backend α
  | .truncate len => b.truncate len
  | .writeAt id f => b.writeAt id f
  | .sync => b.sync

/-- The work a commit snapshots under the lock: the I/O to perform and what to promote. -/
structure CommitPlan (α : Type) where
  io : List (IoOp α)
  metadata : Meta
  inactive : Nat
  deadTrunks : List Nat

namespace Pager

/-- Under the lock: rebuild the trunk chain, then snapshot what to flush. The I/O is the file
extension, the dirty pages, a sync, the new meta into the inactive slot, a sync. -/
def commitBegin : PagerM α (CommitPlan α) := do
  ensureFreeLoaded
  let p ← get
  let (deadTrunks, p) := p.rebuildFreeList
  set p
  let needed := p.metadata.pageCount
  let inactive := 1 - p.activeSlot
  let newMeta := { p.metadata with txnId := p.metadata.txnId + 1 }
  let grow := if p.backend.current.len < needed then [.truncate needed] else []
  pure {
    io := grow ++ p.cache.dirtyPages.map (fun d => .writeAt d.1 d.2) ++
      [.sync, .writeAt inactive (metaFrame newMeta inactive), .sync]
    metadata := newMeta
    inactive := inactive
    deadTrunks := deadTrunks }

/-- The durable I/O, with the lock released. -/
def runIo (ops : List (IoOp α)) (p : Pager α) : Pager α :=
  { p with backend := ops.foldl IoOp.run p.backend }

/-- Promote: the superseded trunks are unreferenced by the durable meta now, so they rejoin the
free set. -/
def commitEnd (plan : CommitPlan α) (p : Pager α) : Pager α :=
  { p with
    cache := p.cache.clearDirty
    metadata := plan.metadata
    activeSlot := plan.inactive
    freeSet := p.freeSet ++ plan.deadTrunks
    txnId := plan.metadata.txnId }

/-- Flush staged changes durably and atomically. -/
def commit : PagerM α Unit := do
  let plan ← commitBegin
  modify (runIo plan.io)
  modify (commitEnd plan)

end Pager

end Edb
