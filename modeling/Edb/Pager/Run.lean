import Edb.Pager.Commit

/-!
# Runs of the pager

`Tracks` is kept by every operation of a caller that keeps to its own pages: it writes and frees
only pages `alloc` handed out to it, and never one that is live in the last committed version.
Along such a run every crash recovers (`commit_crash_atomic`).

What is live in a version is what its catalog root reaches, following the page ids that the
payload of a page refers to (`refs`).
-/

namespace Edb

variable {α : Type}

namespace Pager

namespace Follows

variable {p p' : Pager α} {v : Version α}

theorem grows (h : Follows p v) {new : List Nat} (hg : Grows p p' new) : Follows p' v := by
  have hheader := hg.header
  refine ⟨hg.ok, ?_, ?_, Nat.le_trans h.count hg.count, ?_, ?_, ?_, ?_⟩
  · rw [hg.backend]
    exact h.synced
  · rw [hg.backend, hg.slot]
    exact h.stored
  · rw [hheader]
    exact h.txn
  · rw [hheader]
    exact h.version
  · rw [hheader]
    exact h.size
  · rw [hg.trunks]
    exact h.trunks

/-- Whatever is staged, the file stores the last version. -/
theorem withCache (h : Follows p v) {c : PageCache α} (hok : Ok { p with cache := c }) :
    Follows { p with cache := c } v :=
  ⟨hok, h.synced, h.stored, h.count, h.txn, h.version, h.size, h.trunks⟩

theorem free (h : Follows p v) {id : Nat} (howned : p.Owned id) :
    Follows { p.load with freeSet := p.frees ++ [id] } v :=
  ⟨h.ok.free howned, h.synced, h.stored, h.count, h.txn, h.version, h.size, h.trunks⟩

end Follows

namespace Tracks

variable {p p' : Pager α} {v : Version α}

theorem grows (h : Tracks p v) {new : List Nat} (hg : Grows p p' new) : Tracks p' v := by
  refine (h.follows.grows hg).tracks (fun id hid => hg.owned_mono (h.owned id hid))
    fun id hid hdirty => ?_
  rcases hg.dirty id hdirty with hd | hnew
  · exact h.clean id hid hd
  · rcases hid with hlive | htrunk
    · exact hg.fresh hnew (h.owned id hlive)
    · refine (hg.owned_of_new h.ok hnew).2.2.2 ?_
      rw [hg.trunks]
      exact h.trunks.symm.subset htrunk

theorem reads (h : Tracks p v) (hr : Reads p p') : Tracks p' v := h.grows hr.grows

/-- Staging a page that the stored version does not hold leaves that version stored. -/
theorem stage (h : Tracks p v) {id : Nat} {payload : α} (hs : Staged p p' id payload)
    (howned : p.Owned id) (hlive : ¬ v.live id) : Tracks p' v := by
  obtain ⟨c, rfl⟩ := hs.same
  refine (h.follows.withCache hs.ok).tracks h.owned fun id' hid' hdirty => ?_
  rcases (hs.dirty id').mp hdirty with rfl | hdirty
  · rcases hid' with hl | ht
    · exact hlive hl
    · exact howned.2.2.2 (h.trunks.symm.subset ht)
  · exact h.clean id' hid' hdirty

/-- Returning a page the last version does not use. -/
theorem free (h : Tracks p v) {id : Nat} (howned : p.Owned id) (hlive : ¬ v.live id) :
    Tracks { p.load with freeSet := p.frees ++ [id] } v := by
  refine (h.follows.free howned).tracks (fun id' hid' => ?_) h.clean
  obtain ⟨hlo, hhi, hf, ht⟩ := h.owned id' hid'
  refine ⟨hlo, hhi, fun hmem => ?_, ht⟩
  rcases List.mem_append.mp hmem with hmem | hmem
  · exact hf hmem
  · rw [List.mem_singleton.mp hmem] at hid'
    exact hlive hid'

theorem setCatalogRoot (h : Tracks p v) (root : Option Nat) : Tracks (p.setCatalogRoot root) v :=
  ⟨⟨h.ok.loads, h.ok.nodup, h.ok.range, h.ok.count, h.ok.coherent, h.ok.resident⟩, h.synced,
    h.stored, h.count, h.txn, h.version, h.size, h.trunks, h.owned, h.clean⟩

end Tracks

/-- The lists a reopened file gives back are those of the version it stores. -/
theorem adopt_lists {i : Image α} {slot : Nat} {v : Version α} (h : Stored i slot v)
    (cacheBytes : Nat) : (adopt i cacheBytes v.metadata slot).lists = (v.free, v.trunkIds) := by
  have hload : loadFreeList (adopt i cacheBytes v.metadata slot).backend.current
      (adopt i cacheBytes v.metadata slot).metadata = .ok (v.free, v.trunkIds) := h.loadFreeList
  unfold lists
  rw [if_neg (by simp [adopt]), hload]

/-- Opening a file that stores a version resumes from it. -/
theorem tracks_adopt {i : Image α} {slot : Nat} {v : Version α} (h : Stored i slot v)
    (cacheBytes : Nat) : Tracks (adopt i cacheBytes v.metadata slot) v := by
  have hload := h.loadFreeList
  have hfrees : (adopt i cacheBytes v.metadata slot).frees = v.free :=
    congrArg Prod.fst (adopt_lists h cacheBytes)
  have htrunks : (adopt i cacheBytes v.metadata slot).trunkIds = v.trunkIds :=
    congrArg Prod.snd (adopt_lists h cacheBytes)
  refine ⟨⟨fun _ => ⟨_, hload⟩, ?_, ?_, h.sound.valid.count, ?_, ?_⟩, rfl, h, Nat.le_refl _, rfl,
    h.sound.valid.version, h.sound.valid.size, ?_, fun id hid => ?_, ?_⟩
  · rw [hfrees, htrunks]
    exact h.sound.nodup
  · rw [hfrees, htrunks]
    exact h.sound.range
  · exact ⟨List.nodup_nil, (fun _ _ h => nomatch h), (fun _ _ h => nomatch h)⟩
  · exact fun _ _ h => nomatch h
  · rw [htrunks]
  · obtain ⟨hlo, hhi⟩ := h.sound.liveRange id hid
    have hnot := h.sound.liveNotFree id hid
    rw [List.mem_append, not_or] at hnot
    refine ⟨hlo, hhi, ?_, ?_⟩
    · rw [hfrees]
      exact hnot.1
    · rw [htrunks]
      exact hnot.2
  · rintro id - ⟨e, he, -⟩
    cases he

end Pager

/-- The version of a freshly created database. -/
def Version.initial : Version α where
  metadata := Meta.initial
  live := fun _ => False
  content := fun _ => none
  trunks := []

/-- A new pager tracks the empty version. -/
theorem Pager.tracks_create (cacheBytes : Nat) :
    Pager.Tracks (Pager.create cacheBytes : Pager α) Version.initial := by
  have hbackend : (Pager.create cacheBytes : Pager α).backend.durable =
      ((Image.empty.apply (.resize firstDataPage)).apply
        (.page 0 (metaFrame Meta.initial 0))) := rfl
  refine ⟨Pager.create_ok cacheBytes, rfl, ?_, Nat.le_refl _, rfl, rfl, rfl, List.Perm.refl _,
    (fun _ h => nomatch h), ?_⟩
  · rw [hbackend]
    refine ⟨.inl rfl, rfl, fun m hm => ?_, ?_, ⟨(fun _ h => nomatch h), 0, rfl, rfl⟩, ?_⟩
    · obtain ⟨f, image, hf, -, -⟩ := readMeta_eq_ok.mp hm
      cases hf
    · exact Nat.le_refl firstDataPage
    · exact ⟨⟨rfl, rfl, Nat.le_refl _, (fun h => nomatch h), (fun h => nomatch h)⟩,
        ⟨(by simp [Version.initial]),
        (by simp [Version.initial]), List.nodup_nil⟩, List.nodup_nil, (fun _ h => nomatch h),
        (fun _ h => nomatch h), (fun _ h => nomatch h)⟩
  · rintro id - ⟨e, he, -⟩
    cases he

/-! ## Callers -/

section Callers

variable [Payload α] (refs : α → List Nat)

/-- The pages a root reaches, following the page ids in the payloads. -/
inductive Reach (view : Nat → Option (Frame α)) (root : Option Nat) : Nat → Prop
  | root {r : Nat} : root = some r → Reach view root r
  | step {id c : Nat} {payload : α} : Reach view root id →
      view id = some { id := id, body := .data payload } → c ∈ refs payload → Reach view root c

/-- The pages the staged catalog root reaches. -/
def Pager.Reachable (p : Pager α) : Nat → Prop := Reach refs p.view p.metadata.catalogRoot

/-- One operation of a caller that never frees or rewrites a page live in the last committed
version. A `tidy` caller moreover only writes and frees pages that were handed out to it, and
only commits a root whose pages it holds. -/
inductive CallerStep (tidy : Prop) : Pager α × Version α → Pager α × Version α → Prop
  | alloc {p p' : Pager α} {v : Version α} (id : Nat) :
      Pager.alloc p = .ok id p' → CallerStep tidy (p, v) (p', v)
  | read {p : Pager α} {v : Version α} (id : Nat) :
      CallerStep tidy (p, v) (Lib.endState (Pager.readPage id p), v)
  | writePage {p p' : Pager α} {v : Version α} (id : Nat) (payload : α) :
      ¬ v.live id → (tidy → p.Owned id) → Pager.writePage id payload p = .ok () p' →
      CallerStep tidy (p, v) (p', v)
  | free {p p' : Pager α} {v : Version α} (id : Nat) :
      ¬ v.live id → (tidy → p.Owned id) → Pager.free id p = .ok () p' →
      CallerStep tidy (p, v) (p', v)
  | setCatalogRoot {p : Pager α} {v : Version α} (root : Option Nat) :
      CallerStep tidy (p, v) (p.setCatalogRoot root, v)
  | commit {p p' : Pager α} {v : Version α} :
      (tidy → ∀ id, p.Reachable refs id → p.Owned id) → Pager.commit p = .ok () p' →
      CallerStep tidy (p, v) (p', p.nextVersion (p.Reachable refs))

/-- The states a caller reaches from a fresh database. -/
inductive CallerRun (tidy : Prop) : Pager α × Version α → Prop
  | create (cacheBytes : Nat) : CallerRun tidy (Pager.create cacheBytes, Version.initial)
  | step {s s' : Pager α × Version α} : CallerRun tidy s → CallerStep refs tidy s s' →
      CallerRun tidy s'

variable {refs}

/-- One operation of a tidy caller keeps to the last version. -/
theorem CallerStep.tracks {p p' : Pager α} {v v' : Version α}
    (hstep : CallerStep refs True (p, v) (p', v')) (h : Pager.Tracks p v) :
    Pager.Tracks p' v' := by
  cases hstep with
  | alloc id halloc =>
      obtain ⟨id, p₁, hrun, hg, -⟩ := Pager.alloc_spec h.ok
      rw [hrun] at halloc
      cases halloc
      exact h.grows hg
  | read id => exact h.reads (Pager.readPage_spec h.ok id).2
  | writePage id payload hlive howned hwrite =>
      have ho := howned trivial
      by_cases hlen : Payload.len payload ≤ pagePayloadSize
      · obtain ⟨p₁, hrun, hs⟩ := Pager.writePage_spec h.ok ho.1 ho.2.1 hlen
        rw [hrun] at hwrite
        cases hwrite
        exact h.stage hs ho hlive
      · rw [Pager.writePage_eq ho.1 ho.2.1, if_pos (Nat.lt_of_not_le hlen)] at hwrite
        cases hwrite
  | free id hlive howned hfree =>
      have ho := howned trivial
      rw [Pager.free_eq h.ok.loads ho.1 ho.2.1] at hfree
      cases hfree
      exact h.free ho hlive
  | setCatalogRoot root => exact h.setCatalogRoot root
  | commit hreach hcommit =>
      have hlive := hreach trivial
      have hroot : p.metadata.catalogRoot ≠ some 0 := fun h0 =>
        absurd (hlive 0 (.root h0)).1 (by decide)
      obtain ⟨hrun, -, htracks⟩ := h.commit (p.Reachable refs) hlive hroot
      rw [hrun] at hcommit
      cases hcommit
      exact htracks

/-- A tidy caller's pager tracks its last committed version, at every point of the run. -/
theorem CallerRun.tracks {s : Pager α × Version α} (hrun : CallerRun refs True s) :
    Pager.Tracks s.1 s.2 := by
  induction hrun with
  | create cacheBytes => exact Pager.tracks_create cacheBytes
  | step _ hstep ih => exact hstep.tracks ih

/-- The opened pager adopts the version: its pages and trunk chain read back as committed, and
its free list names no live page. -/
structure Adopts (q : Pager α) (v : Version α) : Prop where
  metadata : q.metadata = v.metadata
  view : ∀ id, v.live id → q.view id = v.content id
  data : ∀ id f, v.live id → v.content id = some f → ∃ q', Pager.readPage id q = .ok f q'
  chain : ∃ head, q.metadata.freelistHead = u64ToOpt head ∧ TrunkChain q.view head v.trunks
  freeList : loadFreeList q.backend.current q.metadata = .ok (v.free, v.trunkIds)
  notLive : ∀ id ∈ v.free ++ v.trunkIds, ¬ v.live id

omit [Payload α] in
/-- A pager opened on a stored version adopts it. -/
theorem Stored.adopts {i : Image α} {slot : Nat} {v : Version α} (h : Stored i slot v)
    (cacheBytes : Nat) : Adopts (Pager.adopt i cacheBytes v.metadata slot) v := by
  have htracks := Pager.tracks_adopt h cacheBytes
  have hview : ∀ id, (Pager.adopt i cacheBytes v.metadata slot).view id = i.frameAt id :=
    fun _ => rfl
  refine ⟨rfl, fun id hid => (hview id).trans (h.intact.live id hid), fun id f hid hf => ?_, ?_,
    h.loadFreeList, fun id hid hl => h.sound.liveNotFree id hl hid⟩
  · have howned := htracks.owned id hid
    obtain ⟨q', hread, -⟩ := (Pager.readPage_spec htracks.ok id).1 howned.1 howned.2.1 f
      ((hview id).trans ((h.intact.live id hid).trans hf))
    exact ⟨q', hread⟩
  · obtain ⟨head, hhead, hchain⟩ := h.intact.chain
    exact ⟨head, hhead, hchain.congr fun t _ => hview t.id⟩

/-- The file a commit leaves when it is cut after `k` of its I/O operations and the crash deals
the unsynced writes these fates. -/
def Pager.crashImage (p₁ : Pager α) (plan : CommitPlan α) (k : Nat) (fates : List Fate) :
    Image α := ((plan.io.take k).foldl IoOp.run p₁.backend).crash fates

/-- **Crash atomicity.** Wherever a tidy caller's commit is cut, opening the surviving file
adopts the last committed version or the one being committed, whole. -/
theorem commit_crash_atomic {p : Pager α} {v : Version α} (hrun : CallerRun refs True (p, v))
    (hreach : ∀ id, p.Reachable refs id → p.Owned id) {plan : CommitPlan α} {p₁ : Pager α}
    (hbegin : Pager.commitBegin p = .ok plan p₁) (k : Nat) (fates : List Fate)
    (cacheBytes : Nat) :
    ∃ q, Pager.openImage (Pager.crashImage p₁ plan k fates) cacheBytes = .ok q ∧
      (Adopts q v ∨ Adopts q (p.nextVersion (p.Reachable refs))) := by
  have htracks := hrun.tracks
  have hroot : p.metadata.catalogRoot ≠ some 0 := fun h0 =>
    absurd (hreach 0 (.root h0)).1 (by decide)
  rw [Pager.commitBegin_eq htracks.ok.loads] at hbegin
  cases hbegin
  rcases htracks.crash hreach hroot k fates with hold | hnew
  · exact ⟨_, hold.openImage cacheBytes, .inl (hold.adopts cacheBytes)⟩
  · exact ⟨_, hnew.openImage cacheBytes, .inr (hnew.adopts cacheBytes)⟩

end Callers

/-! ## An untidy caller -/

/-- A payload of no bytes. -/
instance : Payload Unit where
  len _ := 0

/-- Page 2 is allocated, freed and committed, which makes it the trunk of the free list; then it
is written although it was not handed out again. -/
def untidyPager : Pager Unit :=
  Lib.endState ((do
    let id ← Pager.alloc
    Pager.free id
    Pager.commit
    Pager.writePage id ()) (Pager.create 0))

/-- Not being live in the last version is not enough: a caller that writes a page it does not
hold, here the trunk page, loses the free list of the last version to a crash before the new
meta is written. -/
theorem untidy_write_breaks_recovery :
    ¬ ∀ (p : Pager Unit) (v : Version Unit), CallerRun (fun _ => []) False (p, v) →
      ∀ plan p₁, Pager.commitBegin p = .ok plan p₁ → ∀ k fates cacheBytes,
        ∃ q, Pager.openImage (Pager.crashImage p₁ plan k fates) cacheBytes = .ok q ∧
          (Adopts q v ∨ Adopts q (p.nextVersion (p.Reachable fun _ => []))) := by
  intro hclaim
  obtain ⟨p₁, h₁⟩ : ∃ p₁, p₁ = Lib.endState (Pager.alloc (Pager.create 0 : Pager Unit)) := ⟨_, rfl⟩
  obtain ⟨p₂, h₂⟩ : ∃ p₂, p₂ = Lib.endState (Pager.free 2 p₁) := ⟨_, rfl⟩
  obtain ⟨p₃, h₃⟩ : ∃ p₃, p₃ = Lib.endState (Pager.commit p₂) := ⟨_, rfl⟩
  have hrun₁ : CallerRun (fun _ : Unit => []) False (p₁, Version.initial) := by
    refine .step (.create 0) (.alloc 2 ?_)
    rw [h₁]
    rfl
  have hrun₂ : CallerRun (fun _ : Unit => []) False (p₂, Version.initial) := by
    refine .step hrun₁ (.free 2 (fun h => h) (fun h => h.elim) ?_)
    rw [h₂, h₁]
    rfl
  have hrun₃ : CallerRun (fun _ : Unit => []) False
      (p₃, p₂.nextVersion (p₂.Reachable fun _ => [])) := by
    refine .step hrun₂ (.commit (fun h => h.elim) ?_)
    rw [h₃, h₂, h₁]
    rfl
  -- page 2 is freed and the committed free list names it, yet the caller writes it
  have hlive : ¬ p₂.Reachable (fun _ : Unit => []) 2 := by
    intro h
    cases h with
    | root h =>
        rw [h₂, h₁] at h
        cases h
    | step _ _ hmem => cases hmem
  have hrun₄ : CallerRun (fun _ : Unit => []) False
      (untidyPager, p₂.nextVersion (p₂.Reachable fun _ => [])) := by
    refine .step hrun₃ (.writePage 2 () hlive (fun h => h.elim) ?_)
    rw [h₃, h₂, h₁]
    rfl
  have hplan : Pager.commitBegin untidyPager = .ok untidyPager.plan untidyPager.rebuilt := by
    set_option maxRecDepth 4000 in rfl
  obtain ⟨q, hopen, hadopt⟩ := hclaim _ _ hrun₄ _ _ hplan 1 [.kept] 0
  have hq : q = Pager.adopt (Pager.crashImage untidyPager.rebuilt untidyPager.plan 1 [.kept]) 0
      untidyPager.metadata 1 := by
    have hadopted : Pager.openImage
        (Pager.crashImage untidyPager.rebuilt untidyPager.plan 1 [.kept]) 0 =
        .ok (Pager.adopt (Pager.crashImage untidyPager.rebuilt untidyPager.plan 1 [.kept]) 0
          untidyPager.metadata 1) := rfl
    rw [hadopted] at hopen
    exact (Except.ok.inj hopen).symm
  subst hq
  -- the image recovers neither version: the one has a page of the wrong type in its chain,
  -- the other a later transaction
  rcases hadopt with hadopt | hadopt
  · have hlist : loadFreeList (Pager.crashImage untidyPager.rebuilt untidyPager.plan 1 [.kept])
        untidyPager.metadata = .error (.corruption (.freelistBadType 2)) := rfl
    have := hadopt.freeList
    change loadFreeList (Pager.crashImage untidyPager.rebuilt untidyPager.plan 1 [.kept])
      untidyPager.metadata = _ at this
    rw [hlist] at this
    cases this
  · have := congrArg Meta.txnId hadopt.metadata
    exact absurd this (by decide)

/-- Page 2 is written and committed as the root. -/
def tidyPager : Pager Unit :=
  Lib.endState ((do
    let id ← Pager.alloc
    Pager.writePage id ()
    modify (Pager.setCatalogRoot (some id))) (Pager.create 0))

theorem tidyPager_reachable : ∀ id, tidyPager.Reachable (fun _ => []) id → tidyPager.Owned id := by
  intro id hid
  cases hid with
  | root h =>
      obtain rfl : 2 = id := Option.some_inj.mp h
      exact ⟨by decide, by decide, by decide, by decide⟩
  | step _ _ hmem => cases hmem

/-- A commit of one page, cut after its meta is written and before it is synced, the meta kept. -/
theorem commit_crash_atomic_tidyPager : ∃ q, Pager.openImage (Pager.crashImage
    tidyPager.rebuilt tidyPager.plan 4 [.kept]) 0 = .ok q ∧ (Adopts q Version.initial ∨
      Adopts q (tidyPager.nextVersion (tidyPager.Reachable fun _ => []))) := by
  have h₁ : CallerRun (fun _ : Unit => []) True
      (Lib.endState (Pager.alloc (Pager.create 0)), Version.initial) :=
    .step (.create 0) (.alloc 2 rfl)
  have h₂ : CallerRun (fun _ : Unit => []) True
      (Lib.endState (Pager.writePage 2 () (Lib.endState (Pager.alloc (Pager.create 0)))),
        Version.initial) :=
    .step h₁ (.writePage 2 () (fun h => h)
      (fun _ => ⟨by decide, by decide, by decide, by decide⟩) rfl)
  have h₃ : CallerRun (fun _ : Unit => []) True (tidyPager, Version.initial) :=
    .step h₂ (.setCatalogRoot (some 2))
  have hplan : Pager.commitBegin tidyPager = .ok tidyPager.plan tidyPager.rebuilt :=
    Pager.commitBegin_eq h₃.tracks.ok.loads
  exact commit_crash_atomic h₃ tidyPager_reachable hplan 4 [.kept] 0

end Edb
