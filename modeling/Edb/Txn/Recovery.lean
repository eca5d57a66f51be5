import Edb.Txn.Run

/-!
# The lives of a database

A database is created, runs, and is opened again from whatever a crash has left of its file, any
number of times (`Life`). Along every life the pages of a live snapshot do not change
(`snapshot_immutable`), every crash recovers what had been answered for (`acknowledged_durable`),
and in the first life every page is accounted for after every batch (`page_accounting`).
-/

namespace Edb.Txn

open Edb.BTree Edb.Lib

/-! ## The databases of a client -/

namespace Client

variable (C : Client)

/-- The shared state of the client's database. -/
abbrev State := Shared C.Reject C.Out

def spawn (p : Pager Node) (root : Nat) : C.State × Writer := Txn.spawn C.name p root

def create (cacheBytes : Nat) : Except BTreeError (C.State × Writer) :=
  Txn.create C.name cacheBytes

def openDb (i : Image Node) (cacheBytes : Nat) : Except BTreeError (C.State × Writer) :=
  Txn.openDb C.name i cacheBytes

/-- The writer's program for some batches of requests. -/
def program (w : Writer) (batches : List (List C.Request)) :
    WriterM C.Reject C.Out (Except (TxnError C.Reject) Writer) :=
  run w (batches.map fun batch => batch.map C.apply)

/-- The writer's program under way, and the state. -/
abbrev Config := WriterM C.Reject C.Out (Except (TxnError C.Reject) Writer) × C.State

/-- Any number of steps of the writer and its readers, in any order. -/
abbrev Reaches : C.Config → C.Config → Prop := Prog.Reaches (WriterOp.exec C.name) ReaderStep

/-- A database that has just been created, or opened after a crash, with its writer about to
process some batches; and all it then comes to. -/
inductive Life : C.Config → Prop
  | created {s : C.State} {w : Writer} (cacheBytes : Nat) (batches : List (List C.Request)) :
      C.create cacheBytes = .ok (s, w) → Life (C.program w batches, s)
  | step {c c' : C.Config} : Life c → Prog.Step (WriterOp.exec C.name) ReaderStep c c' → Life c'
  | reopened {c : C.Config} {s : C.State} {w : Writer} (fates : List Fate) (cacheBytes : Nat)
      (batches : List (List C.Request)) : Life c →
      C.openDb (c.2.pager.backend.crash fates) cacheBytes = .ok (s, w) →
      Life (C.program w batches, s)

end Client

/-! ## Starting -/

section Start

variable {C : Client} {lost : List Nat} {p : Pager Node} {v : Version Node} {f : Forest}
variable {ts : List PageTree}

/-- The books of a database that has just been opened. -/
def Books.opened (f : Forest) (ts : List PageTree) : Books where
  durable := f
  durableTrees := ts
  current := f
  trees := ts
  freed := []
  pending := []
  orphaned := []

/-- The database is idle, holding the forest, and has answered nothing. -/
def Opened (C : Client) (lost : List Nat) (f : Forest) (s : C.State) (w : Writer) : Prop :=
  ∃ ts, s.replies = [] ∧ Idle C w (.opened f ts) 0 s.status ∧
    Quiet C lost (.opened f ts) 0 s.status s

/-- A writer started at a stored version. -/
theorem spawn_opened (htracks : Pager.Tracks p v) (hstores : Stores C v f ts)
    (hview : ∀ id ∈ pagesOf ts, p.view id = v.content id)
    (hroot : p.metadata.catalogRoot = some f.root) (htxn : p.txnId = p.metadata.txnId)
    (haccount : (pagesOf ts ++ lost ++ (p.frees ++ p.trunkIds)).Perm
      (List.range' firstDataPage (p.metadata.pageCount - firstDataPage))) :
    Opened C lost f (C.spawn p f.root).1 (C.spawn p f.root).2 := by
  have howned : ∀ id ∈ pagesOf ts, p.Owned id := fun id hid =>
    htracks.owned id ((hstores.live id).mpr hid)
  have hholding := hstores.holding p fun id hid => ⟨hview id hid, howned id hid⟩
  have hcontents := hholding.contents_eq htracks.ok (C.named hstores.inv)
  refine ⟨ts, rfl, ⟨⟨rfl, rfl, rfl, rfl⟩, rfl, rfl, hroot, rfl, rfl, rfl⟩,
    ⟨⟨⟨v, htracks, hstores⟩, ?_, hstores.inv, hholding, ?_, htxn⟩, ?_, ?_, le_refl _, ?_⟩, rfl⟩
  · exact fun id hid => List.mem_append_left _ hid
  · unfold Books.pages Books.opened
    simp only [List.append_nil, parked_nil]
    exact haccount
  · refine ⟨Registry.pins_new _ _, le_refl _, (fun _ h => nomatch h), (fun _ h => nomatch h), ?_⟩
    intro snap hsnap
    rw [List.mem_singleton.mp hsnap]
    refine ⟨fun _ _ => rfl, fun id hid => .inl (List.mem_append_left _ ?_)⟩
    exact (hholding.versionPage_iff (C.named hstores.inv) fun _ _ => rfl).mp hid
  · exact congrArg some hcontents
  · exact Nat.le_succ _

/-- Pages that none of the lists and trees has make up the rest of the file. -/
theorem account_lost (hp : p.Ok) {l : List Nat} (hnodup : l.Nodup) (howned : ∀ id ∈ l, p.Owned id) :
    ∃ lost, (l ++ lost ++ (p.frees ++ p.trunkIds)).Perm
      (List.range' firstDataPage (p.metadata.pageCount - firstDataPage)) := by
  have hcount := hp.count
  have hall : (l ++ (p.frees ++ p.trunkIds)).Nodup := by
    refine List.nodup_append.mpr ⟨hnodup, hp.nodup, ?_⟩
    rintro a ha b hb rfl
    obtain ⟨-, -, hf, ht⟩ := howned a ha
    rcases List.mem_append.mp hb with hb | hb
    · exact hf hb
    · exact ht hb
  have hsub : ∀ id ∈ l ++ (p.frees ++ p.trunkIds),
      id ∈ List.range' firstDataPage (p.metadata.pageCount - firstDataPage) := by
    intro id hid
    rw [List.mem_range'_1]
    rcases List.mem_append.mp hid with hid | hid
    · have := howned id hid
      exact ⟨this.1, by have := this.2.1; omega⟩
    · have := hp.range id hid
      omega
  refine ⟨(List.range' firstDataPage (p.metadata.pageCount - firstDataPage)).diff
    (l ++ (p.frees ++ p.trunkIds)), List.Perm.trans ?_
      (List.subperm_append_diff_self_of_count_le fun id hid =>
        le_trans (List.nodup_iff_count.mp hall id) (List.count_pos_iff.mpr (hsub id hid)))⟩
  rw [List.perm_iff_count]
  intro a
  simp only [List.count_append]
  omega

/-- A file that stores a version opens with the forest of that version. Pages that none of its
lists and trees has are lost. -/
theorem openDb_of_stored {i : Image Node} {slot : Nat} (h : Stored i slot v)
    (hstores : Stores C v f ts) (cacheBytes : Nat) :
    C.openDb i cacheBytes = .ok (C.spawn (Pager.adopt i cacheBytes v.metadata slot) f.root) ∧
      ∃ lost, Opened C lost f (C.spawn (Pager.adopt i cacheBytes v.metadata slot) f.root).1
        (C.spawn (Pager.adopt i cacheBytes v.metadata slot) f.root).2 := by
  have htracks := Pager.tracks_adopt h cacheBytes
  have hroot : (Pager.adopt i cacheBytes v.metadata slot).metadata.catalogRoot = some f.root :=
    hstores.root
  constructor
  · unfold Client.openDb openDb
    rw [h.openImage cacheBytes]
    simp only [hroot]
    rfl
  · have hview : ∀ id ∈ pagesOf ts,
        (Pager.adopt i cacheBytes v.metadata slot).view id = v.content id := fun id hid =>
      h.intact.live id ((hstores.live id).mpr hid)
    have howned : ∀ id ∈ pagesOf ts, (Pager.adopt i cacheBytes v.metadata slot).Owned id :=
      fun id hid => htracks.owned id ((hstores.live id).mpr hid)
    have hholding := hstores.holding _ fun id hid => ⟨hview id hid, howned id hid⟩
    obtain ⟨lost, haccount⟩ := account_lost htracks.ok hholding.nodup howned
    exact ⟨lost, spawn_opened htracks hstores hview hroot rfl haccount⟩

/-- A fresh database holds an empty tree, and has lost no page. -/
theorem create_opened (C : Client) (cacheBytes : Nat) : ∃ s w root,
    C.create cacheBytes = .ok (s, w) ∧ Opened C [] (.single root TreeState.empty) s w := by
  obtain ⟨root, p₁, hrun, hg, hholds⟩ := create_spec (Pager.create_ok cacheBytes)
  -- the seed: an empty catalog tree at a fresh page, committed as the first version
  have htracks := ((Pager.tracks_create cacheBytes).grows hg).setCatalogRoot (some root)
  have hholding : Holding p₁ [⟨0, BTree.Tree.leaf root []⟩]
      (Forest.single root TreeState.empty).trees := by
    have hempty : Holding p₁ [] fun _ => none :=
      ⟨(fun _ h => nomatch h), List.nodup_nil, (fun _ h => nomatch h), (fun _ _ h => nomatch h)⟩
    exact (hempty.add hholds (show TreeState.empty.shape = _ from rfl) fun _ _ h => nomatch h).2
  have howned : ∀ id, id ∈ pagesOf [⟨0, BTree.Tree.leaf root []⟩] →
      (p₁.setCatalogRoot (some root)).Owned id := fun id hid => hholding.owned hid
  obtain ⟨hcommit, hcommits, htracks'⟩ := htracks.commit
    (· ∈ pagesOf [⟨0, BTree.Tree.leaf root []⟩]) howned (fun h => by
      have hlo := (hholds.owned _ (root_mem_pages _)).1
      rw [show root = 0 from Option.some_inj.mp h] at hlo
      exact absurd hlo (by decide))
  have hseed : seed (Pager.create cacheBytes) =
      .ok root (p₁.setCatalogRoot (some root)).afterCommit := by
    unfold seed
    rw [Lib.bind_of_ok hrun, Lib.bind_of_ok (Lib.modify_apply _ _),
      Lib.bind_of_ok (liftPager_of_ok hcommit)]
    rfl
  refine ⟨_, _, root, by unfold Client.create create; rw [hseed], ?_⟩
  refine spawn_opened (v := Pager.nextVersion (p₁.setCatalogRoot (some root))
    (· ∈ pagesOf [⟨0, BTree.Tree.leaf root []⟩])) htracks'
      ⟨C.created root _ rfl, ?_, fun _ => Iff.rfl, fun q hq => ?_⟩
      (fun id hid => hcommits.view id (howned id hid)) hcommits.root rfl ?_
  · change (p₁.setCatalogRoot (some root)).rebuilt.metadata.catalogRoot = _
    rw [Pager.rebuilt_eq]
    rfl
  · exact hholding.frame (fun id hid => (hq id hid).1) fun id hid => (hq id hid).2
  · rw [hcommits.count]
    refine List.Perm.trans (List.Perm.append_left _ hcommits.pages) ?_
    have hpages : (p₁.frees ++ [root]).Perm
        (List.range' firstDataPage (p₁.metadata.pageCount - firstDataPage)) := hg.pages
    -- a new pager has no trunk, so every page but the root is free
    have htrunks : p₁.trunkIds = [] := hg.trunks
    refine List.Perm.trans ?_ hpages
    change ([root] ++ [] ++ (p₁.frees ++ p₁.trunkIds)).Perm _
    rw [htrunks, List.append_nil, List.append_nil]
    exact List.perm_append_comm

end Start

/-! ## Every life is safe -/

section Lives

variable {C : Client}

/-- What the writer comes to from an idle database. -/
theorem Opened.run {lost : List Nat} {f : Forest} {s : C.State} {w : Writer}
    (h : Opened C lost f s w) (batches : List (List C.Request)) {c : C.Config}
    (hc : C.Reaches (C.program w batches, s) c) : Safe C c.2 ∧ ∀ r, c.1 = .ret r →
      AfterBatch C lost f s.status batches.flatten r c.2 := by
  obtain ⟨ts, -, hidle, hquiet⟩ := h
  exact run_spec batches hidle s hquiet c hc

/-- A crash of a safe database leaves a file that opens with a version not older than the last
one answered for. -/
theorem Safe.reopens {s : C.State} (h : Safe C s) (fates : List Fate) (cacheBytes : Nat) :
    ∃ s' w f lost n, C.openDb (s.pager.backend.crash fates) cacheBytes = .ok (s', w) ∧
      Opened C lost f s' w ∧ s.versions[n]? = some (f.contents C.name) ∧
      s.acknowledged ≤ n + 1 := by
  obtain ⟨slot, v, f, ts, n, hstored, hstores, hversion, hack⟩ := h.recovers fates
  obtain ⟨hopen, lost, hopened⟩ := openDb_of_stored hstored hstores cacheBytes
  exact ⟨_, _, f, lost, n, hopen, hopened, hversion, hack⟩

/-- Every moment of a life is reached from an opened database. -/
theorem Client.Life.opened {c : C.Config} (h : C.Life c) : ∃ lost f s w batches,
    Opened C lost f s w ∧ C.Reaches (C.program w batches, s) c := by
  induction h with
  | @created s w cacheBytes batches hcreate =>
      obtain ⟨s', w', root, hcreate', hopened⟩ := create_opened C cacheBytes
      rw [hcreate] at hcreate'
      cases hcreate'
      exact ⟨_, _, s, w, batches, hopened, .refl⟩
  | step _ hstep ih =>
      obtain ⟨lost, f, s, w, batches, hopened, hreach⟩ := ih
      exact ⟨lost, f, s, w, batches, hopened, hreach.tail hstep⟩
  | @reopened c s w fates cacheBytes batches _ hopen ih =>
      obtain ⟨lost, f, s₀, w₀, batches₀, hopened, hreach⟩ := ih
      obtain ⟨s', w', f', lost', n, hopen', hopened', -⟩ :=
        (hopened.run batches₀ hreach).1.reopens fates cacheBytes
      rw [hopen] at hopen'
      cases hopen'
      exact ⟨lost', f', s, w, batches, hopened', .refl⟩

theorem Client.Life.safe {c : C.Config} (h : C.Life c) : Safe C c.2 := by
  obtain ⟨lost, f, s, w, batches, hopened, hreach⟩ := h.opened
  exact (hopened.run batches hreach).1

/-! ## The guarantees -/

/-- A key/value database that has just been created, its empty tree on page 2. -/
def kvOpened : kvClient.State × Writer := kvClient.spawn (endState (seed (Pager.create 0))) 2

/-- The same after `n` operations of a writer with one put to process. -/
def kvPut (n : Nat) : kvClient.Config :=
  Prog.advance (WriterOp.exec kvClient.name) n
    (kvClient.program kvOpened.2 [[[.put [1] [7]]]], kvOpened.1)

theorem kvOpened_created : kvClient.create 0 = .ok kvOpened := rfl

theorem kvPut_reached (n : Nat) : kvClient.Reaches
    (kvClient.program kvOpened.2 [[[.put [1] [7]]]], kvOpened.1) (kvPut n) :=
  Prog.reaches_advance n _

theorem Client.Life.advance {c : C.Config} (h : C.Life c) (n : Nat) :
    C.Life (Prog.advance (WriterOp.exec C.name) n c) :=
  (Prog.reaches_advance n c).rec h fun _ hstep ih => .step ih hstep

theorem kvPut_life (n : Nat) : kvClient.Life (kvPut n) :=
  Client.Life.advance (.created 0 _ kvOpened_created) n

/-- What the writer has returned, if it has. -/
def Client.Config.returned {C : Client} (c : C.Config) : Option Writer :=
  match c.1 with
  | .ret (.ok w) => some w
  | _ => none

theorem Client.Config.eq_of_returned {c : C.Config} {w : Writer} (h : c.returned = some w) :
    c = (.ret (.ok w), c.2) := by
  obtain ⟨p, s⟩ := c
  unfold returned at h
  split at h
  next heq =>
    cases h
    exact Prod.ext heq rfl
  next => cases h

/-- The put is committed after fifteen operations: the tree is on page 3, page 2 is parked. -/
theorem kvPut_returned :
    (kvPut 15).returned = some { root := 3, pending := [(2, [2])], orphaned := [] } := by
  decide +kernel

/-- **Snapshots are immutable.** At every moment of every life, beside whatever the writer and the
other readers do, each page of a live snapshot reads as it did when its version was published. -/
theorem snapshot_immutable {c : C.Config} (h : C.Life c) {snap : Snapshot}
    (hsnap : snap ∈ c.2.snapshots) {id : Nat}
    (hid : VersionPage C.name snap.content snap.root id) :
    c.2.pager.view id = snap.content id ∧ ∀ frame, snap.content id = some frame →
      ∃ p, Pager.readPage id c.2.pager = .ok frame p := by
  have hsafe := h.safe
  have hview := hsafe.intact snap hsnap id hid
  refine ⟨hview, fun frame hframe => ?_⟩
  obtain ⟨hlo, hhi⟩ := hsafe.inFile snap hsnap id hid
  obtain ⟨p, hread, -⟩ := (Pager.readPage_spec hsafe.ok id).1 hlo hhi frame (hview.trans hframe)
  exact ⟨p, hread⟩

/-- Three batches that put a value under one key. -/
def kvBatches : List (List (List Op)) := [[[.put [1] [7]]], [[.put [1] [8]]], [[.put [1] [9]]]]

/-- The writer has answered for the first of the batches, and a reader pins its version. -/
def kvPinned : kvClient.Config :=
  let c : kvClient.Config := Prog.advance (WriterOp.exec kvClient.name) 15
    (kvClient.program kvOpened.2 kvBatches, kvOpened.1)
  (c.1, { c.2 with
    registry := c.2.registry.acquire.2
    snapshots :=
      { root := c.2.registry.acquire.1.1, txnId := c.2.registry.acquire.1.2,
        content := c.2.published } :: c.2.snapshots })

/-- The writer has processed the other two. -/
def kvPassed : kvClient.Config := Prog.advance (WriterOp.exec kvClient.name) 34 kvPinned

theorem kvPassed_life : kvClient.Life kvPassed := by
  have hpinned : kvClient.Life kvPinned :=
    (Client.Life.advance (.created 0 _ kvOpened_created) 15).step (.env _ (.acquire _))
  exact hpinned.advance 34

/-- Page 2, which the first batch superseded, has been reclaimed, page 3 of the snapshot is
parked, and page 5 is published. -/
theorem kvPassed_returned :
    kvPassed.returned = some { root := 5, pending := [(3, [3]), (4, [4])], orphaned := [] } ∧
      kvPassed.2.pager.frees = [2] ∧ kvPassed.2.snapshots.any (fun snap =>
        decide (snap.root = some 3) && (snap.content 3).isSome) = true := by
  decide +kernel

/-- Two batches later the page of the snapshot is there to be read. -/
theorem snapshot_immutable_put : ∃ snap ∈ kvPassed.2.snapshots, snap.root = some 3 ∧
    ∃ frame p, snap.content 3 = some frame ∧ kvPassed.2.pager.view 3 = some frame ∧
      Pager.readPage 3 kvPassed.2.pager = .ok frame p := by
  obtain ⟨-, -, hsnap⟩ := kvPassed_returned
  obtain ⟨snap, hmem, hsnap⟩ := List.any_eq_true.1 hsnap
  rw [Bool.and_eq_true, decide_eq_true_eq] at hsnap
  obtain ⟨hroot, hframe⟩ := hsnap
  obtain ⟨frame, hframe⟩ := Option.isSome_iff_exists.1 hframe
  have hpage : VersionPage kvClient.name snap.content snap.root 3 := ⟨3, hroot, .inl (.root 3)⟩
  obtain ⟨hview, hread⟩ := snapshot_immutable kvPassed_life hmem hpage
  obtain ⟨p, hread⟩ := hread frame hframe
  exact ⟨snap, hmem, hroot, frame, p, hframe, hview.trans hframe, hread⟩

/-- **Acknowledged transactions are durable.** Whenever and however a crash hits, the database
opens again, with the contents after some prefix of the batches: all that were answered are in it,
and at most one more is. The database goes on from there: what it hands out for writing is none of
the recovered pages, and its further life is one of those this is about. -/
theorem acknowledged_durable {c : C.Config} (h : C.Life c) (fates : List Fate)
    (cacheBytes : Nat) : ∃ s w, C.openDb (c.2.pager.backend.crash fates) cacheBytes = .ok (s, w) ∧
      (∃ n, c.2.versions[n]? = some (contents C.name (some w.root) s.pager) ∧
        c.2.acknowledged ≤ n + 1 ∧ n ≤ c.2.acknowledged) ∧
      (∀ id p, Pager.alloc s.pager = .ok id p →
        ¬ VersionPage C.name s.pager.view (some w.root) id) ∧
      ∀ batches, C.Life (C.program w batches, s) := by
  have hsafe := h.safe
  obtain ⟨s, w, f, lost, n, hopen, ⟨ts, -, hidle, hquiet⟩, hversion, hack⟩ :=
    hsafe.reopens fates cacheBytes
  have hkept := hquiet.1.kept
  have hroot : f.root = w.root := hidle.agrees.root
  refine ⟨s, w, hopen, ⟨n, ?_, hack, ?_⟩, fun id p halloc hid => ?_, fun batches =>
    .reopened fates cacheBytes batches h hopen⟩
  · rw [hversion, ← hroot]
    exact congrArg some (hkept.holding.contents_eq hkept.ok (C.named hkept.inv)).symm
  · have hlt := (List.getElem?_eq_some_iff.mp hversion).1
    have := hsafe.inFlight
    omega
  · rw [← hroot] at hid
    have hmem := (hkept.holding.versionPage_iff (C.named hkept.inv) fun _ _ => rfl).mp hid
    obtain ⟨id', p', hrun, hg, -⟩ := Pager.alloc_spec hkept.ok
    rw [hrun] at halloc
    cases halloc
    exact hg.fresh (List.mem_singleton.mpr rfl) (hkept.holding.owned hmem)

/-- A crash in the middle of the commit of the put, with nothing kept of the unsynced writes. -/
theorem acknowledged_durable_put : ∃ s w,
    kvClient.openDb ((kvPut 9).2.pager.backend.crash []) 0 = .ok (s, w) ∧
      ∃ n : Nat,
        (kvPut 9).2.versions[n]? = some (contents kvClient.name (some w.root) s.pager) := by
  obtain ⟨s, w, hopen, ⟨n, hversion, -⟩, -⟩ := acknowledged_durable (kvPut_life 9) [] 0
  exact ⟨s, w, hopen, n, hversion⟩

/-- **Every page is accounted for.** After any batches of the first life, the data pages of the
file are those the published root reaches, those parked for a snapshot or orphaned, and those
free or in the trunk chain, each once. -/
theorem page_accounting {cacheBytes : Nat} {s₀ s : C.State} {w₀ w : Writer}
    (hcreate : C.create cacheBytes = .ok (s₀, w₀)) {batches : List (List C.Request)}
    (hrun : C.Reaches (C.program w₀ batches, s₀) (.ret (.ok w), s)) :
    ∃ reachable : List Nat,
      (∀ id, id ∈ reachable ↔ VersionPage C.name s.pager.view s.registry.root id) ∧
      (reachable ++ parked w.pending ++ w.orphaned ++ (s.pager.frees ++ s.pager.trunkIds)).Perm
        (List.range' firstDataPage (s.pager.metadata.pageCount - firstDataPage)) := by
  obtain ⟨s', w', root, hcreate', hopened⟩ := create_opened C cacheBytes
  rw [hcreate] at hcreate'
  cases hcreate'
  obtain ⟨b, n, φ, ⟨hidle, -⟩, hsteady, rfl⟩ := (hopened.run batches hrun).2 _ rfl
  have hkept := hsteady.kept
  have hroot : s.registry.root = some b.current.root := by
    rw [hidle.agrees.root]
    exact hidle.root
  refine ⟨pagesOf b.trees, fun id => ?_, ?_⟩
  · rw [hroot]
    exact (hkept.holding.versionPage_iff (C.named hkept.inv) fun _ _ => rfl).symm
  · have haccount := hkept.account
    unfold Books.pages at haccount
    rwa [hidle.agrees.freed, hidle.agrees.pending, hidle.agrees.orphaned, List.append_nil,
      List.append_nil] at haccount

theorem page_accounting_put : ∃ reachable : List Nat,
    (∀ id, id ∈ reachable ↔ VersionPage kvClient.name (kvPut 15).2.pager.view
      (kvPut 15).2.registry.root id) ∧
    (reachable ++ parked [(2, [2])] ++ [] ++
      ((kvPut 15).2.pager.frees ++ (kvPut 15).2.pager.trunkIds)).Perm
        (List.range' firstDataPage ((kvPut 15).2.pager.metadata.pageCount - firstDataPage)) := by
  have hreached := kvPut_reached 15
  rw [Client.Config.eq_of_returned kvPut_returned] at hreached
  exact page_accounting kvOpened_created hreached

end Lives

end Edb.Txn
