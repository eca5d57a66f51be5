import Edb.Pager.Flush
import Edb.Txn.Forest

/-!
# The invariant of the writer and its readers

`Books` says where every page of the file is: in the current trees, superseded by the running
batch, parked for some snapshot, orphaned, or back with the pager. `Kept` is the part of the
invariant about a pager, `Pinned` the part about the readers, `Steady` both together with the
record of versions.

`Steady` is about a pager `p` that need not be the one in the shared state: while a job runs, `p`
is where it began, and while a commit flushes, `p` is where the commit began.
-/

namespace Edb.Txn

open Edb.BTree Edb.Lib

/-! ## Where the pages are -/

/-- The pages of a pending list. -/
def parked (pending : List (Nat × List Nat)) : List Nat := pending.flatMap Prod.snd

@[simp] theorem parked_nil : parked [] = [] := rfl

@[simp] theorem parked_cons (e : Nat × List Nat) (l : List (Nat × List Nat)) :
    parked (e :: l) = e.2 ++ parked l := rfl

@[simp] theorem parked_append (l l' : List (Nat × List Nat)) :
    parked (l ++ l') = parked l ++ parked l' := List.flatMap_append

theorem mem_parked {l : List (Nat × List Nat)} {id : Nat} :
    id ∈ parked l ↔ ∃ e ∈ l, id ∈ e.2 := List.mem_flatMap

structure Books where
  /-- What the last commit made durable, with the trees it is on. -/
  durable : Forest
  durableTrees : List PageTree
  /-- The forest at the writer's root. -/
  current : Forest
  trees : List PageTree
  /-- The pages the running batch superseded. -/
  freed : List Nat
  pending : List (Nat × List Nat)
  orphaned : List Nat

/-- The pages the writer accounts for. -/
def Books.pages (b : Books) : List Nat :=
  pagesOf b.trees ++ b.freed ++ parked b.pending ++ b.orphaned

/-- What the batch superseded is parked under the id of its commit. -/
def Books.park (b : Books) (txn : Nat) : Books :=
  { b with
    freed := []
    pending := if b.freed.isEmpty then b.pending else b.pending ++ [(txn, b.freed)] }

/-- The version has the forest, on the pages of these trees. -/
structure Stores (C : Client) (v : Version Node) (f : Forest) (ts : List PageTree) : Prop where
  inv : C.Inv f
  root : v.metadata.catalogRoot = some f.root
  live : ∀ id, v.live id ↔ id ∈ pagesOf ts
  holding : ∀ p : Pager Node,
    (∀ id ∈ pagesOf ts, p.view id = v.content id ∧ p.Owned id) → Holding p ts f.trees

section Pages

variable (C : Client) (lost : List Nat)

/-- The pager holds the current trees, and every page of its file is accounted for, each once.
The pages `lost` belong to nobody: an earlier run of the database had parked them. -/
structure Kept (b : Books) (p : Pager Node) : Prop where
  version : ∃ v, Pager.Tracks p v ∧ Stores C v b.durable b.durableTrees
  durable : ∀ id ∈ pagesOf b.durableTrees, id ∈ pagesOf b.trees ++ b.freed
  inv : C.Inv b.current
  holding : Holding p b.trees b.current.trees
  account : (b.pages ++ lost ++ (p.frees ++ p.trunkIds)).Perm
    (List.range' firstDataPage (p.metadata.pageCount - firstDataPage))
  txn : p.txnId = p.metadata.txnId

variable {C lost} {b b' : Books} {p p' : Pager Node}

namespace Kept

theorem ok (h : Kept C lost b p) : p.Ok := by
  obtain ⟨v, hv, -⟩ := h.version
  exact hv.ok

theorem nodup (h : Kept C lost b p) : (b.pages ++ lost ++ (p.frees ++ p.trunkIds)).Nodup :=
  h.account.nodup_iff.mpr List.nodup_range'

/-- What the writer accounts for is not with the pager. -/
theorem owned (h : Kept C lost b p) {id : Nat} (hid : id ∈ b.pages) : p.Owned id := by
  have hmem : id ∈ b.pages ++ lost := List.mem_append_left _ hid
  have hrange := List.mem_range'_1.mp (h.account.subset (List.mem_append_left _ hmem))
  have hcount := h.ok.count
  have hnot : id ∉ p.frees ++ p.trunkIds := fun hout =>
    (List.nodup_append.mp h.nodup).2.2 id hmem id hout rfl
  rw [List.mem_append, not_or] at hnot
  exact ⟨hrange.1, by omega, hnot.1, hnot.2⟩

theorem owned_current (h : Kept C lost b p) {id : Nat} (hid : id ∈ pagesOf b.trees ++ b.freed) :
    p.Owned id := h.owned (List.mem_append_left _ (List.mem_append_left _ hid))

theorem owned_parked (h : Kept C lost b p) {id : Nat} (hid : id ∈ parked b.pending) :
    p.Owned id := h.owned (List.mem_append_left _ (List.mem_append_right _ hid))

/-- The count of a page over all the places it may be in. -/
theorem count_le (h : Kept C lost b p) (id : Nat) : (pagesOf b.trees).count id +
    b.freed.count id + (parked b.pending).count id + b.orphaned.count id ≤ 1 := by
  have := List.nodup_iff_count.mp h.nodup id
  simp only [Books.pages, List.count_append] at this
  omega

/-- The pages of a job that came to nothing are orphans. -/
theorem orphan (h : Kept C lost b p) {new : List Nat} (hg : Pager.Grows p p' new) :
    Kept C lost { b with orphaned := b.orphaned ++ new } p' := by
  obtain ⟨v, hv, hstores⟩ := h.version
  refine ⟨⟨v, hv.grows hg, hstores⟩, h.durable, h.inv, h.holding.grows hg, ?_, ?_⟩
  · have hcount := h.ok.count
    have hgrow := hg.count
    rw [Pager.range'_split hcount hgrow]
    have h₁ := h.account
    have h₂ := hg.pages
    rw [List.perm_iff_count] at h₁ h₂ ⊢
    intro a
    have e₁ := h₁ a
    have e₂ := h₂ a
    simp only [Books.pages, List.count_append, hg.trunks] at e₁ e₂ ⊢
    omega
  · rw [hg.txn, h.txn, hg.header]

theorem reads (h : Kept C lost b p) (hr : Pager.Reads p p') : Kept C lost b p' := by
  have := h.orphan hr.grows
  rwa [List.append_nil] at this

/-- A job that succeeded: its trees are current, and what it superseded is parked. -/
theorem job (h : Kept C lost b p) {l : Ledger} {ts : List PageTree} {new fr : List Nat}
    (hrun : Running p b.current b.trees l p' ts new fr) (hinv : C.Inv l.toForest) :
    Kept C lost { b with current := l.toForest, trees := ts, freed := b.freed ++ fr } p' := by
  have hg := hrun.grows
  obtain ⟨v, hv, hstores⟩ := h.version
  refine ⟨⟨v, hv.grows hg, hstores⟩, fun id hid => ?_, hinv, hrun.holding, ?_, ?_⟩
  · rcases List.mem_append.mp (h.durable id hid) with hid | hid
    · rcases List.mem_append.mp (hrun.pages.symm.subset (List.mem_append_left _ hid)) with hid | hid
      · exact List.mem_append_left _ hid
      · exact List.mem_append_right _ (List.mem_append_right _ hid)
    · exact List.mem_append_right _ (List.mem_append_left _ hid)
  · have hcount := h.ok.count
    have hgrow := hg.count
    rw [Pager.range'_split hcount hgrow]
    have h₁ := h.account
    have h₂ := hg.pages
    have h₃ := hrun.pages
    rw [List.perm_iff_count] at h₁ h₂ h₃ ⊢
    intro a
    have e₁ := h₁ a
    have e₂ := h₂ a
    have e₃ := h₃ a
    simp only [Books.pages, List.count_append, hg.trunks] at e₁ e₂ e₃ ⊢
    omega
  · rw [hg.txn, h.txn, hg.header]

theorem setLog (h : Kept C lost b p) (log : Option (List Nat)) :
    Kept C lost b { p with allocLog := log } := by
  obtain ⟨v, hv, hstores⟩ := h.version
  refine ⟨⟨v, ?_, hstores⟩, h.durable, h.inv, ?_, h.account, h.txn⟩
  · exact ⟨⟨hv.ok.loads, hv.ok.nodup, hv.ok.range, hv.ok.count, hv.ok.coherent, hv.ok.resident⟩,
      hv.synced, hv.stored, hv.count, hv.txn, hv.version, hv.size, hv.trunks, hv.owned, hv.clean⟩
  · exact h.holding.frame (fun _ _ => rfl) fun _ hid => h.holding.owned hid

theorem setCatalogRoot (h : Kept C lost b p) (root : Option Nat) :
    Kept C lost b (p.setCatalogRoot root) := by
  obtain ⟨v, hv, hstores⟩ := h.version
  refine ⟨⟨v, hv.setCatalogRoot root, hstores⟩, h.durable, h.inv, ?_, h.account, h.txn⟩
  exact h.holding.frame (fun _ _ => rfl) fun _ hid => h.holding.owned hid

/-- A parked or orphaned page goes back to the pager. -/
theorem free (h : Kept C lost b p) {id : Nat} (hdurable : b'.durable = b.durable)
    (hdurableTrees : b'.durableTrees = b.durableTrees) (hcurrent : b'.current = b.current)
    (htrees : b'.trees = b.trees) (hfreed : b'.freed = b.freed)
    (hpages : b.pages.Perm (id :: b'.pages)) :
    Kept C lost b' { p.load with freeSet := p.frees ++ [id] } := by
  have howned : p.Owned id := h.owned (hpages.symm.subset (List.mem_cons_self ..))
  -- the page is neither in a current tree nor superseded by the batch
  have hnot : id ∉ pagesOf b.trees ++ b.freed := by
    intro hmem
    have hnodup := hpages.nodup_iff.mp
      (List.nodup_append.mp (List.nodup_append.mp h.nodup).1).1
    refine (List.nodup_cons.mp hnodup).1 ?_
    rw [Books.pages, htrees, hfreed]
    exact List.mem_append_left _ (List.mem_append_left _ hmem)
  obtain ⟨v, hv, hstores⟩ := h.version
  have hlive : ¬ v.live id := fun hl => hnot (h.durable id ((hstores.live id).mp hl))
  refine ⟨⟨v, hv.free howned hlive, by rw [hdurable, hdurableTrees]; exact hstores⟩, ?_, ?_, ?_, ?_,
    h.txn⟩
  · rw [hdurableTrees, htrees, hfreed]
    exact h.durable
  · rw [hcurrent]
    exact h.inv
  · rw [htrees, hcurrent]
    refine h.holding.frame (fun _ _ => rfl) fun id' hid' => ?_
    obtain ⟨hlo, hhi, hf, ht⟩ := h.holding.owned hid'
    refine ⟨hlo, hhi, fun hmem => ?_, ht⟩
    rcases List.mem_append.mp hmem with hmem | hmem
    · exact hf hmem
    · exact hnot (List.mem_append_left _ (List.mem_singleton.mp hmem ▸ hid'))
  · refine List.Perm.trans ?_ h.account
    change (b'.pages ++ lost ++ (p.frees ++ [id] ++ p.trunkIds)).Perm _
    rw [List.perm_iff_count] at hpages ⊢
    intro a
    have e₁ := hpages a
    simp only [List.count_append, List.count_cons, List.count_nil] at e₁ ⊢
    omega

/-- The current trees are what the next version stores. -/
theorem stores_next (h : Kept C lost b p) (hroot : p.metadata.catalogRoot = some b.current.root) :
    Stores C (p.nextVersion (· ∈ pagesOf b.trees)) b.current b.trees := by
  refine ⟨h.inv, ?_, fun _ => Iff.rfl, fun q hq => ?_⟩
  · change p.rebuilt.metadata.catalogRoot = _
    rw [Pager.rebuilt_eq]
    exact hroot
  · exact h.holding.frame (fun id hid => (hq id hid).1) fun id hid => (hq id hid).2

theorem root_mem (h : Kept C lost b p) : b.current.root ∈ pagesOf b.trees := by
  obtain ⟨st, hst, -⟩ := (C.named h.inv).tree
  obtain ⟨t, ht, hroot⟩ := h.holding.all _ st hst
  exact mem_pagesOf.mpr ⟨t, ht, hroot ▸ root_mem_pages t⟩

theorem root_ne_zero (h : Kept C lost b p) : some b.current.root ≠ some 0 := by
  have hlo := (h.holding.owned h.root_mem).1
  have hfirst : firstDataPage = 2 := rfl
  rw [Ne, Option.some_inj]
  omega

/-- A finished commit makes the current trees durable. -/
theorem commit (h : Kept C lost b p) (hroot : p.metadata.catalogRoot = some b.current.root)
    (hr : Pager.Reads p.afterCommit p') :
    Kept C lost { b with durable := b.current, durableTrees := b.trees } p' := by
  obtain ⟨v, hv, -⟩ := h.version
  obtain ⟨-, hcommits, htracks⟩ := hv.commit (· ∈ pagesOf b.trees)
    (fun id hid => h.holding.owned hid) (by rw [hroot]; exact h.root_ne_zero)
  refine Kept.reads ⟨⟨_, htracks, h.stores_next hroot⟩,
    fun id hid => List.mem_append_left _ hid, h.inv, ?_, ?_, ?_⟩ hr
  · exact h.holding.frame (fun id hid => hcommits.view id (h.holding.owned hid))
      fun id hid => hcommits.owned_iff.mpr (h.holding.owned hid)
  · rw [hcommits.count]
    exact (List.Perm.append_left _ hcommits.pages).trans h.account
  · rfl

/-- Parking the freed pages under a transaction keeps the state, once the trees are durable. -/
theorem park (h : Kept C lost b p) (hdurable : b.durableTrees = b.trees) (txn : Nat) :
    Kept C lost (b.park txn) p := by
  refine ⟨h.version, fun id hid => ?_, h.inv, h.holding, ?_, h.txn⟩
  · change id ∈ pagesOf b.trees ++ []
    rw [List.append_nil, ← hdurable]
    exact hid
  · refine List.Perm.trans (List.Perm.append_right _ (List.Perm.append_right _ ?_)) h.account
    rw [List.perm_iff_count]
    intro a
    unfold Books.pages Books.park
    cases hfreed : b.freed with
    | nil => simp
    | cons id freed =>
        simp only [List.isEmpty_cons, Bool.false_eq_true, if_false, parked_append, parked_cons,
          parked_nil, List.count_append, List.count_cons, List.count_nil]
        omega

end Kept

end Pages

/-! ## What the readers see -/

/-- What a reader would pin now. -/
def Shared.latest {ε Out : Type} (s : Shared ε Out) : Snapshot where
  root := s.registry.root
  txnId := s.registry.txnId
  content := s.published

section Readers

variable (C : Client)

/-- The pages of the snapshot read as they did when its version was published, and they are not
given back before the snapshot is released: a parked one was superseded after its version. -/
structure Seen (b : Books) (p : Pager Node) (snap : Snapshot) : Prop where
  intact : ∀ id, VersionPage C.name snap.content snap.root id → p.view id = snap.content id
  kept : ∀ id, VersionPage C.name snap.content snap.root id →
    id ∈ pagesOf b.trees ++ b.freed ∨ ∃ e ∈ b.pending, snap.txnId < e.1 ∧ id ∈ e.2

/-- The registry knows the live snapshots, and the books keep their pages. -/
structure Pinned (b : Books) (p : Pager Node) (s : Shared C.Reject C.Out) : Prop where
  pins : s.registry.Pins (s.snapshots.map Snapshot.txnId)
  age : s.registry.txnId ≤ p.txnId
  live : ∀ snap ∈ s.snapshots, snap.txnId ≤ s.registry.txnId
  pending : ∀ e ∈ b.pending, e.1 ≤ s.registry.txnId
  seen : ∀ snap ∈ s.latest :: s.snapshots, Seen C b p snap

variable {C} {lost : List Nat} {b b' : Books} {p p' : Pager Node} {s s' : Shared C.Reject C.Out}
variable {snap : Snapshot}

/-- Readers publish nothing. -/
theorem ReaderStep.latest (hstep : ReaderStep s s') : s'.latest = s.latest := by
  cases hstep with
  | acquire => rfl
  | readPage => rfl
  | release hsplit =>
      unfold Shared.latest
      rw [(Registry.release_published _ _).1, (Registry.release_published _ _).2]

theorem ReaderStep.txnId (hstep : ReaderStep s s') : s'.registry.txnId = s.registry.txnId :=
  congrArg Snapshot.txnId hstep.latest

/-- The snapshots readers have are of versions published before. -/
theorem ReaderStep.mem_snapshots (hstep : ReaderStep s s') (h : snap ∈ s'.latest :: s'.snapshots) :
    snap ∈ s.latest :: s.snapshots := by
  rw [hstep.latest] at h
  cases hstep with
  | acquire =>
      rcases List.mem_cons.mp h with rfl | h
      · exact List.mem_cons_self ..
      · exact h
  | readPage => exact h
  | release hsplit =>
      rw [hsplit]
      simp only [List.mem_cons, List.mem_append] at h ⊢
      tauto

/-- What a page was superseded by is not newer than any version in use. -/
def Past {ε Out : Type} (txn : Nat) (s : Shared ε Out) : Prop :=
  ∀ snap ∈ s.latest :: s.snapshots, txn ≤ snap.txnId

theorem Past.reader {txn : Nat} (hstep : ReaderStep s s') (h : Past txn s) : Past txn s' :=
  fun snap hsnap => h snap (hstep.mem_snapshots hsnap)

/-- A snapshot sees the same while the pages it can reach are kept. -/
theorem Seen.frame (h : Seen C b p snap) (hk : Kept C lost b p)
    (hview : ∀ id, p.Owned id → p'.view id = p.view id)
    (hcurrent : ∀ id ∈ pagesOf b.trees ++ b.freed, id ∈ pagesOf b'.trees ++ b'.freed)
    (hpending : b'.pending = b.pending) : Seen C b' p' snap := by
  refine ⟨fun id hid => ?_, fun id hid => ?_⟩
  · rw [hview id, h.intact id hid]
    rcases h.kept id hid with hmem | ⟨e, he, -, hmem⟩
    · exact hk.owned_current hmem
    · exact hk.owned_parked (mem_parked.mpr ⟨e, he, hmem⟩)
  · rw [hpending]
    rcases h.kept id hid with hmem | hmem
    · exact .inl (hcurrent id hmem)
    · exact .inr hmem

namespace Pinned

theorem reader (hstep : ReaderStep s s') (h : Pinned C b p s) : Pinned C b p s' := by
  refine ⟨?_, by rw [hstep.txnId]; exact h.age, fun snap hsnap => ?_,
    fun e he => by rw [hstep.txnId]; exact h.pending e he,
    fun snap hsnap => h.seen snap (hstep.mem_snapshots hsnap)⟩
  · cases hstep with
    | acquire => exact h.pins.acquire
    | readPage => exact h.pins
    | @release l₁ l₂ snap hsplit =>
        have hpins := h.pins
        rw [hsplit, List.map_append, List.map_cons] at hpins
        change (s.registry.release snap.txnId).Pins ((l₁ ++ l₂).map Snapshot.txnId)
        rw [List.map_append]
        exact hpins.release rfl
  · rw [hstep.txnId]
    rcases List.mem_cons.mp (hstep.mem_snapshots (List.mem_cons_of_mem _ hsnap)) with rfl | hsnap
    · exact le_refl _
    · exact h.live snap hsnap

/-- Only the registry, the snapshots and the published pages matter. -/
theorem congr (h : Pinned C b p s) (hregistry : s'.registry = s.registry)
    (hsnapshots : s'.snapshots = s.snapshots) (hpublished : s'.published = s.published) :
    Pinned C b p s' := by
  have hlatest : s'.latest = s.latest := by
    unfold Shared.latest
    rw [hregistry, hpublished]
  refine ⟨?_, ?_, ?_, ?_, ?_⟩ <;> simp only [hregistry, hsnapshots, hlatest]
  exacts [h.pins, h.age, h.live, h.pending, h.seen]

/-- The pager moves on, with what the books keep reading the same. -/
theorem frame (h : Pinned C b p s) (hk : Kept C lost b p)
    (hview : ∀ id, p.Owned id → p'.view id = p.view id) (htxn : p.txnId ≤ p'.txnId)
    (hcurrent : ∀ id ∈ pagesOf b.trees ++ b.freed, id ∈ pagesOf b'.trees ++ b'.freed)
    (hpending : b'.pending = b.pending) : Pinned C b' p' s :=
  ⟨h.pins, le_trans h.age htxn, h.live, by rw [hpending]; exact h.pending,
    fun snap hsnap => (h.seen snap hsnap).frame hk hview hcurrent hpending⟩

/-- An entry of the pending list that no version in use needs may lose its pages. -/
theorem reclaim {l₁ l₂ l : List (Nat × List Nat)} {e : Nat × List Nat} (h : Pinned C b p s)
    (hpending : b.pending = l₁ ++ e :: l₂) (hpast : Past e.1 s) (hl : ∀ e' ∈ l, e'.1 = e.1)
    (hview : ∀ id, p'.view id = p.view id) (htxn : p'.txnId = p.txnId) :
    Pinned C { b with pending := l₁ ++ (l ++ l₂) } p' s := by
  have hmem : ∀ e' ∈ l₁ ++ l₂, e' ∈ b.pending := fun e' he' => by
    rw [hpending]
    exact ((List.sublist_cons_self e l₂).append_left l₁).subset he'
  refine ⟨h.pins, by rw [htxn]; exact h.age, h.live, fun e' he' => ?_, fun snap hsnap => ?_⟩
  · simp only [List.mem_append] at he' hmem
    rcases he' with he' | he' | he'
    · exact h.pending e' (hmem e' (.inl he'))
    · rw [hl e' he']
      exact h.pending e (by rw [hpending]; simp)
    · exact h.pending e' (hmem e' (.inr he'))
  · refine ⟨fun id hid => by rw [hview]; exact (h.seen snap hsnap).intact id hid, fun id hid => ?_⟩
    rcases (h.seen snap hsnap).kept id hid with hin | ⟨e', he', hlt, hin⟩
    · exact .inl hin
    · refine .inr ⟨e', ?_, hlt, hin⟩
      rw [hpending] at he'
      simp only [List.mem_append, List.mem_cons] at he' ⊢
      rcases he' with he' | rfl | he'
      · exact .inl he'
      · have := hpast snap hsnap
        omega
      · exact .inr (.inr he')

/-- Publishing the current trees under the id of their commit. -/
theorem publish (h : Pinned C b s.pager s) (hk : Kept C lost b s.pager) {txn : Nat}
    (hlt : s.registry.txnId < txn) (hle : txn ≤ s.pager.txnId) :
    Pinned C (b.park txn) s.pager { s with
      registry := s.registry.publish (some b.current.root) txn
      published := s.pager.view } := by
  -- parking adds the freed pages under the new transaction, unless there are none
  have hmem : ∀ e ∈ (b.park txn).pending, e ∈ b.pending ∨ e = (txn, b.freed) := fun e he => by
    unfold Books.park at he
    dsimp only at he
    split at he
    · exact .inl he
    · simpa using he
  have hpending : ∀ e ∈ b.pending, e ∈ (b.park txn).pending := fun e he => by
    unfold Books.park
    dsimp only
    split
    · exact he
    · exact List.mem_append_left _ he
  refine ⟨h.pins.publish _ _, hle, fun snap hsnap => ?_, fun e he => ?_, fun snap hsnap => ?_⟩
  · exact le_of_lt (lt_of_le_of_lt (h.live snap hsnap) hlt)
  · rcases hmem e he with he | rfl
    · exact le_of_lt (lt_of_le_of_lt (h.pending e he) hlt)
    · exact le_refl _
  · rcases List.mem_cons.mp hsnap with rfl | hsnap
    · -- the new version is on the current trees
      refine ⟨fun _ _ => rfl, fun id hid => .inl (List.mem_append_left _ ?_)⟩
      exact (hk.holding.versionPage_iff (C.named hk.inv) fun _ _ => rfl).mp hid
    · have hseen := h.seen snap (List.mem_cons_of_mem _ hsnap)
      refine ⟨hseen.intact, fun id hid => ?_⟩
      rcases hseen.kept id hid with hin | ⟨e, he, hage, hin⟩
      · rcases List.mem_append.mp hin with hin | hin
        · exact .inl (List.mem_append_left _ hin)
        · -- superseded by the batch, after the snapshot was taken
          refine .inr ⟨(txn, b.freed), ?_, lt_of_le_of_lt (h.live snap hsnap) hlt, hin⟩
          unfold Books.park
          dsimp only
          rw [if_neg (by rw [List.isEmpty_iff]; rintro hnil; rw [hnil] at hin; cases hin)]
          exact List.mem_append_right _ (List.mem_singleton.mpr rfl)
      · exact .inr ⟨e, hpending e he, hage, hin⟩

end Pinned

end Readers

/-! ## The invariant -/

section Steady

variable (C : Client) (lost : List Nat)

/-- Version `n` is the durable one, no later one has been answered for, and at most one is in
flight. -/
structure Steady (b : Books) (n : Nat) (p : Pager Node) (s : Shared C.Reject C.Out) : Prop where
  kept : Kept C lost b p
  pinned : Pinned C b p s
  recorded : s.versions[n]? = some (b.durable.contents C.name)
  acknowledged : s.acknowledged ≤ n + 1
  inFlight : s.versions.length ≤ s.acknowledged + 1

/-- What holds at every moment: the pages of the live snapshots are intact, and whatever a crash
leaves of the file stores a recorded version that is not older than the last one answered for. -/
structure Safe (s : Shared C.Reject C.Out) : Prop where
  ok : s.pager.Ok
  intact : ∀ snap ∈ s.snapshots, ∀ id, VersionPage C.name snap.content snap.root id →
    s.pager.view id = snap.content id
  inFile : ∀ snap ∈ s.snapshots, ∀ id, VersionPage C.name snap.content snap.root id →
    firstDataPage ≤ id ∧ id < s.pager.metadata.pageCount
  inFlight : s.versions.length ≤ s.acknowledged + 1
  recovers : ∀ fates, ∃ slot v f ts n, Stored (s.pager.backend.crash fates) slot v ∧
    Stores C v f ts ∧ s.versions[n]? = some (f.contents C.name) ∧ s.acknowledged ≤ n + 1

variable {C lost} {b b' : Books} {n m : Nat} {p p' : Pager Node} {s s' : Shared C.Reject C.Out}

/-- What readers leave alone. -/
theorem ReaderStep.record (hstep : ReaderStep s s') : s'.versions = s.versions ∧
    s'.acknowledged = s.acknowledged ∧ s'.replies = s.replies := by
  cases hstep <;> exact ⟨rfl, rfl, rfl⟩

/-- A reader only reads from the pager. -/
theorem ReaderStep.reads (hstep : ReaderStep s s') (hok : s.pager.Ok) :
    Pager.Reads s.pager s'.pager := by
  cases hstep with
  | acquire => exact .refl hok
  | readPage id => exact (Pager.readPage_spec hok id).2
  | release => exact .refl hok

namespace Steady

/-- The pager of the shared state may be another one. -/
theorem setPager (h : Steady C lost b n p s) (q : Pager Node) :
    Steady C lost b n p { s with pager := q } :=
  ⟨h.kept, h.pinned.congr rfl rfl rfl, h.recorded, h.acknowledged, h.inFlight⟩

theorem reader (hstep : ReaderStep s s') (h : Steady C lost b n p s) : Steady C lost b n p s' := by
  obtain ⟨hversions, hack, -⟩ := hstep.record
  refine ⟨h.kept, h.pinned.reader hstep, ?_, ?_, ?_⟩
  · rw [hversions]
    exact h.recorded
  · rw [hack]
    exact h.acknowledged
  · rw [hversions, hack]
    exact h.inFlight

/-- The pager and the books move on, with what was kept reading the same. -/
theorem move (h : Steady C lost b n p s) (hk : Kept C lost b' p')
    (hdurable : b'.durable = b.durable) (hview : ∀ id, p.Owned id → p'.view id = p.view id)
    (htxn : p.txnId ≤ p'.txnId)
    (hcurrent : ∀ id ∈ pagesOf b.trees ++ b.freed, id ∈ pagesOf b'.trees ++ b'.freed)
    (hpending : b'.pending = b.pending) : Steady C lost b' n p' s :=
  ⟨hk, h.pinned.frame h.kept hview htxn hcurrent hpending, by rw [hdurable]; exact h.recorded,
    h.acknowledged, h.inFlight⟩

theorem reads (h : Steady C lost b n p s) (hr : Pager.Reads p p') : Steady C lost b n p' s := by
  obtain ⟨c, hc⟩ := hr.same
  exact h.move (h.kept.reads hr) rfl (fun id _ => hr.view id) (by rw [hc]) (fun _ hid => hid) rfl

/-- The pages of a live snapshot are the writer's. -/
theorem owned (h : Steady C lost b n p s) {snap : Snapshot} (hsnap : snap ∈ s.snapshots) {id : Nat}
    (hid : VersionPage C.name snap.content snap.root id) : p.Owned id := by
  have hseen := h.pinned.seen snap (List.mem_cons_of_mem _ hsnap)
  rcases hseen.kept id hid with hmem | ⟨e, he, -, hmem⟩
  · exact h.kept.owned_current hmem
  · exact h.kept.owned_parked (mem_parked.mpr ⟨e, he, hmem⟩)

/-- Safety of a pager on which what the writer keeps reads as on `p`. -/
theorem safe_of (h : Steady C lost b n p s) (hok : s.pager.Ok)
    (hview : ∀ id, p.Owned id → s.pager.view id = p.view id)
    (hcount : p.metadata.pageCount ≤ s.pager.metadata.pageCount)
    (hrecovers : ∀ fates, ∃ slot v f ts n, Stored (s.pager.backend.crash fates) slot v ∧
      Stores C v f ts ∧ s.versions[n]? = some (f.contents C.name) ∧ s.acknowledged ≤ n + 1) :
    Safe C s := by
  refine ⟨hok, fun snap hsnap id hid => ?_, fun snap hsnap id hid => ?_, h.inFlight, hrecovers⟩
  · rw [hview id (h.owned hsnap hid)]
    exact (h.pinned.seen snap (List.mem_cons_of_mem _ hsnap)).intact id hid
  · obtain ⟨hlo, hhi, -⟩ := h.owned hsnap hid
    exact ⟨hlo, by omega⟩

/-- While the file is not written to, a crash leaves the durable version. -/
theorem safe (h : Steady C lost b n p s) {new : List Nat} (hg : Pager.Grows p s.pager new) :
    Safe C s := by
  refine h.safe_of hg.ok hg.view hg.count fun fates => ?_
  obtain ⟨v, hv, hstores⟩ := h.kept.version
  refine ⟨p.activeSlot, v, b.durable, b.durableTrees, n, ?_, hstores, h.recorded, h.acknowledged⟩
  have hcrash : s.pager.backend.crash fates = p.backend.durable := by
    rw [hg.backend, Backend.crash, hv.synced]
    cases fates <;> rfl
  rw [hcrash]
  exact hv.stored

/-- While a commit flushes, a crash leaves the durable version or the next one. -/
theorem safe_flushing (h : Steady C lost b n p s)
    (hroot : p.metadata.catalogRoot = some b.current.root) {k : Nat}
    (hflush : Pager.Flushing p k s.pager)
    (hnext : s.versions[m]? = some (b.current.contents C.name)) (hack : s.acknowledged ≤ m + 1) :
    Safe C s := by
  refine h.safe_of hflush.ok (fun id hid => hflush.view_owned h.kept.ok hid)
    (le_of_eq hflush.pageCount.symm) fun fates => ?_
  obtain ⟨v, hv, hstores⟩ := h.kept.version
  rw [hflush.backend]
  rcases hv.crash (fun id hid => h.kept.holding.owned hid)
    (by rw [hroot]; exact h.kept.root_ne_zero) k fates with hold | hnew
  · exact ⟨_, v, _, _, n, hold, hstores, h.recorded, h.acknowledged⟩
  · exact ⟨_, _, _, _, m, hnew, h.kept.stores_next hroot, hnext, hack⟩

end Steady

end Steady

end Edb.Txn
