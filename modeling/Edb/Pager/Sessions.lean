import Edb.Pager.Validate

/-!
# Sessions of the allocator

A caller allocates, frees what it holds, writes any page, commits, and closes and reopens the
file. `Session` keeps beside the pager the pages the caller holds, those it held at the last
commit (which a reopened file gives back) and the trunks that commit superseded.

No page is in two places at once (`Session.allocator_safe`). The superseded trunks rejoin the
free set in memory only, so they are what a reopening loses (`Session.reopen_keeps_pages`).
-/

namespace Edb

variable {α : Type}

/-- A pager with what its caller holds. -/
structure Session (α : Type) where
  pager : Pager α
  /-- The pages handed out by `alloc` and not freed since. -/
  live : List Nat
  /-- The pages that were live at the last commit. -/
  saved : List Nat
  /-- The trunks of the chain that the last commit replaced. -/
  superseded : List Nat

namespace Session

def create (cacheBytes : Nat) : Session α where
  pager := Pager.create cacheBytes
  live := []
  saved := []
  superseded := []

section Steps

variable [Payload α]

/-- One operation. Reopening keeps what the last commit saved; a `lossless` caller reopens only
if that commit replaced no trunks. -/
inductive Step (lossless : Prop) : Session α → Session α → Prop
  | alloc {s : Session α} {p' : Pager α} (id : Nat) : s.pager.alloc = .ok id p' →
      Step lossless s { s with pager := p', live := id :: s.live }
  | free {s : Session α} {p' : Pager α} (id : Nat) : id ∈ s.live →
      Pager.free id s.pager = .ok () p' →
      Step lossless s { s with pager := p', live := s.live.erase id }
  | read {s : Session α} (id : Nat) :
      Step lossless s { s with pager := Lib.endState (Pager.readPage id s.pager) }
  | writePage {s : Session α} (id : Nat) (payload : α) :
      Step lossless s { s with pager := Lib.endState (Pager.writePage id payload s.pager) }
  | commit {s : Session α} {p' : Pager α} : s.pager.commit = .ok () p' →
      Step lossless s
        { pager := p', live := s.live, saved := s.live, superseded := s.pager.trunkIds }
  | reopen {s : Session α} {p' : Pager α} (cacheBytes : Nat) :
      (lossless → s.superseded = []) →
      Pager.openImage s.pager.backend.current cacheBytes = .ok p' →
      Step lossless s { s with pager := p', live := s.saved }

/-- The states a caller reaches from a fresh database. -/
inductive Run (lossless : Prop) : Session α → Prop
  | create (cacheBytes : Nat) : Run lossless (create cacheBytes)
  | step {s s' : Session α} : Run lossless s → Step lossless s s' → Run lossless s'

end Steps

/-! ## The invariant -/

/-- The pages of the caller, the free ids and the trunks: pages of the file, each in one place. -/
structure Apart (live free trunks : List Nat) (pageCount : Nat) : Prop where
  nodup : (live ++ (free ++ trunks)).Nodup
  range : ∀ id ∈ live ++ (free ++ trunks), firstDataPage ≤ id ∧ id < pageCount

/-- The invariant of a session whose last commit was `v`. -/
structure Inv (s : Session α) (v : Version α) : Prop where
  follows : s.pager.Follows v
  len : v.metadata.freelistLen = v.free.length
  root : s.pager.metadata.catalogRoot ≠ some 0
  /-- Before they are loaded, the lists are empty. -/
  unloaded : s.pager.freeLoaded = false → s.pager.freeSet = [] ∧ s.pager.trunks = []
  liveNodup : s.live.Nodup
  owned : ∀ id ∈ s.live, s.pager.Owned id
  savedNodup : s.saved.Nodup
  saved : ∀ id, v.live id ↔ id ∈ s.saved
  superseded : ∀ id ∈ s.superseded, firstDataPage ≤ id ∧ id < v.metadata.pageCount ∧
    id ∉ s.saved ∧ id ∉ v.free ++ v.trunkIds

/-- The invariant holds of a new session. -/
theorem inv_create (cacheBytes : Nat) : (create cacheBytes : Session α).Inv Version.initial where
  follows := (Pager.tracks_create cacheBytes).follows
  len := rfl
  root := (fun h => nomatch h)
  unloaded := (fun h => nomatch h)
  liveNodup := List.nodup_nil
  owned := (fun _ h => nomatch h)
  savedNodup := List.nodup_nil
  saved := fun _ => ⟨(fun h => h.elim), (fun h => nomatch h)⟩
  superseded := (fun _ h => nomatch h)

namespace Inv

variable {s : Session α} {v : Version α}

theorem apart (h : s.Inv v) :
    Apart s.live s.pager.frees s.pager.trunkIds s.pager.metadata.pageCount where
  nodup := by
    refine List.nodup_append.mpr ⟨h.liveNodup, h.follows.ok.nodup, fun a ha b hb hab => ?_⟩
    subst hab
    obtain ⟨-, -, hf, ht⟩ := h.owned a ha
    rcases List.mem_append.mp hb with hb | hb
    · exact hf hb
    · exact ht hb
  range := fun id hid => by
    rcases List.mem_append.mp hid with hid | hid
    · exact ⟨(h.owned id hid).1, (h.owned id hid).2.1⟩
    · exact h.follows.ok.range id hid

/-- The lists in memory are those loading would give, or empty. -/
theorem lists_sublist (h : s.Inv v) :
    (s.pager.freeSet ++ s.pager.trunks).Sublist (s.pager.frees ++ s.pager.trunkIds) := by
  cases hl : s.pager.freeLoaded with
  | true =>
      have hlists : s.pager.lists = (s.pager.freeSet, s.pager.trunks) := if_pos hl
      unfold Pager.frees Pager.trunkIds
      rw [hlists]
  | false =>
      obtain ⟨hf, ht⟩ := h.unloaded hl
      rw [hf, ht]
      exact List.nil_sublist _

/-- The same for the fields themselves. -/
theorem apart_fields (h : s.Inv v) :
    Apart s.live s.pager.freeSet s.pager.trunks s.pager.metadata.pageCount := by
  have hsub := h.lists_sublist.append_left s.live
  exact ⟨h.apart.nodup.sublist hsub, fun id hid => h.apart.range id (hsub.subset hid)⟩

/-- The file the pager works on stores the last version. -/
theorem stored (h : s.Inv v) : Stored s.pager.backend.current s.pager.activeSlot v := by
  rw [h.follows.current_eq]
  exact h.follows.stored

/-! ### One lemma for each operation -/

/-- A page just handed out is neither live nor a trunk of the committed chain. -/
theorem fresh (h : s.Inv v) {p' : Pager α} {id : Nat} (hg : Pager.Grows s.pager p' [id]) :
    id ∉ s.live ∧ id ∉ v.trunkIds := by
  have hid : id ∈ [id] := List.mem_singleton_self id
  refine ⟨fun hl => hg.fresh hid (h.owned id hl), fun ht => ?_⟩
  refine (hg.owned_of_new h.follows.ok hid).2.2.2 ?_
  rw [hg.trunks]
  exact h.follows.trunks.symm.subset ht

/-- An allocation keeps the invariant: the page is live now. -/
theorem alloc (h : s.Inv v) {p' : Pager α} {id : Nat} (hg : Pager.Grows s.pager p' [id])
    (hloaded : p'.freeLoaded = true) : Inv { s with pager := p', live := id :: s.live } v := by
  refine ⟨h.follows.grows hg, h.len, ?_, fun hl => ?_, ?_, fun id' hid' => ?_, h.savedNodup,
    h.saved, h.superseded⟩
  · rw [hg.header]
    exact h.root
  · rw [hloaded] at hl
    cases hl
  · exact List.nodup_cons.mpr ⟨(h.fresh hg).1, h.liveNodup⟩
  · rcases List.mem_cons.mp hid' with rfl | hid'
    · exact hg.owned_of_new h.follows.ok (List.mem_singleton_self _)
    · exact hg.owned_mono (h.owned id' hid')

/-- Freeing a live page keeps the invariant. -/
theorem free (h : s.Inv v) {id : Nat} (hid : id ∈ s.live) :
    Inv { s with
      pager := { s.pager.load with freeSet := s.pager.frees ++ [id] }
      live := s.live.erase id } v := by
  refine ⟨h.follows.free (h.owned id hid), h.len, h.root, (fun hl => nomatch hl),
    h.liveNodup.erase id, fun id' hid' => ?_, h.savedNodup, h.saved, h.superseded⟩
  obtain ⟨hne, hmem⟩ := (h.liveNodup.mem_erase_iff).mp hid'
  obtain ⟨hlo, hhi, hf, ht⟩ := h.owned id' hmem
  refine ⟨hlo, hhi, fun hf' => ?_, ht⟩
  rcases List.mem_append.mp hf' with hf' | hf'
  · exact hf hf'
  · exact hne (List.mem_singleton.mp hf')

theorem withCache (h : s.Inv v) {c : PageCache α} (hok : Pager.Ok { s.pager with cache := c }) :
    Inv { s with pager := { s.pager with cache := c } } v :=
  ⟨h.follows.withCache hok, h.len, h.root, h.unloaded, h.liveNodup, h.owned, h.savedNodup, h.saved,
    h.superseded⟩

/-- A commit succeeds and keeps the invariant, with the next version stored. -/
theorem commit (h : s.Inv v) : s.pager.commit = .ok () s.pager.afterCommit ∧
    Inv { pager := s.pager.afterCommit, live := s.live, saved := s.live,
          superseded := s.pager.trunkIds } (s.pager.nextVersion (· ∈ s.live)) := by
  obtain ⟨hrun, hcommits, hnext⟩ := h.follows.commit (· ∈ s.live) h.owned h.root
  have hstored : (s.pager.nextVersion (· ∈ s.live)).free ++
      (s.pager.nextVersion (· ∈ s.live)).trunkIds ⊆ s.pager.frees := by
    refine (List.Perm.trans ?_ s.pager.frees_perm.symm).subset
    exact ((List.reverse_perm _).flatMap_right _).append ((List.reverse_perm _).map _)
  refine ⟨hrun, hnext, ?_, ?_, fun hl => ?_, h.liveNodup, fun id hid =>
    hcommits.owned_iff.mpr (h.owned id hid), h.liveNodup, fun _ => Iff.rfl, fun id hid => ?_⟩
  · change s.pager.rebuilt.metadata.freelistLen = _
    rw [Pager.rebuilt_eq]
    exact ((List.reverse_perm _).flatMap_right _).length_eq.symm
  · rw [hcommits.root]
    exact h.root
  · change s.pager.rebuilt.freeLoaded = false at hl
    rw [Pager.rebuilt_eq] at hl
    cases hl
  · have hrange := h.follows.ok.range id (List.mem_append_right _ hid)
    refine ⟨hrange.1, ?_, fun hl => (h.owned id hl).2.2.2 hid, fun hf =>
      h.follows.ok.not_mem_trunks (hstored hf) hid⟩
    change id < s.pager.rebuilt.metadata.pageCount
    rw [Pager.rebuilt_eq]
    exact hrange.2

/-- Reopening adopts the last version. -/
theorem reopen (h : s.Inv v) (cacheBytes : Nat) : ∃ q,
    Pager.openImage s.pager.backend.current cacheBytes = .ok q ∧ q.frees = v.free ∧
      q.trunkIds = v.trunkIds ∧ q.metadata = v.metadata ∧
      loadFreeList q.backend.current q.metadata = .ok (v.free, v.trunkIds) ∧
      q.activeSlot = s.pager.activeSlot ∧ q.backend.current = s.pager.backend.current ∧
      Inv { s with pager := q, live := s.saved } v := by
  have hstored := h.stored
  have htracks := Pager.tracks_adopt hstored cacheBytes
  have hload := hstored.loadFreeList
  have hlists := Pager.adopt_lists hstored cacheBytes
  exact ⟨_, hstored.openImage cacheBytes, congrArg Prod.fst hlists, congrArg Prod.snd hlists, rfl,
    hload, rfl, rfl, htracks.follows, h.len, hstored.sound.valid.root, (fun _ => ⟨rfl, rfl⟩),
    h.savedNodup, fun id hid => htracks.owned id ((h.saved id).mpr hid), h.savedNodup, h.saved,
    h.superseded⟩

end Inv

/-! ## Runs -/

theorem alloc_loaded {p p' : Pager α} (hp : p.Ok) {id : Nat} (h : p.alloc = .ok id p') :
    p'.freeLoaded = true := by
  unfold Pager.alloc at h
  rw [Lib.bind_of_ok (Pager.ensureFreeLoaded_eq hp.loads), Lib.bind_of_ok (Lib.get_apply _)] at h
  cases hlast : p.load.freeSet.getLast? with
  | some last =>
      rw [hlast] at h
      cases h
      rfl
  | none =>
      rw [hlast] at h
      cases h
      rfl

/-- An allocation that succeeds hands out one fresh page. -/
theorem alloc_grows {p p' : Pager α} (hp : p.Ok) {id : Nat} (h : p.alloc = .ok id p') :
    Pager.Grows p p' [id] := by
  obtain ⟨id', p₁, hrun, hg, -⟩ := Pager.alloc_spec hp
  rw [hrun] at h
  cases h
  exact hg

section Runs

variable [Payload α]

/-- A write only moves the cache, whichever page it names and whether or not it fails. -/
theorem writePage_end {p : Pager α} (hp : p.Ok) (id : Nat) (payload : α) :
    ∃ c, Lib.endState (Pager.writePage id payload p) = { p with cache := c } ∧
      Pager.Ok { p with cache := c } := by
  by_cases hid : firstDataPage ≤ id ∧ id < p.metadata.pageCount
  · by_cases hlen : Payload.len payload ≤ pagePayloadSize
    · obtain ⟨p', hrun, hs⟩ := Pager.writePage_spec hp hid.1 hid.2 hlen
      obtain ⟨c, rfl⟩ := hs.same
      exact ⟨c, by rw [hrun]; rfl, hs.ok⟩
    · rw [Pager.writePage_eq hid.1 hid.2, if_pos (Nat.lt_of_not_le hlen)]
      exact ⟨p.cache, rfl, hp⟩
  · unfold Pager.writePage
    rw [Lib.bind_of_error (Pager.inRange_error (by omega))]
    exact ⟨p.cache, rfl, hp⟩

variable {lossless : Prop} {s s' : Session α}

/-- Every operation keeps the invariant. -/
theorem Step.inv (hstep : Step lossless s s') {v : Version α} (h : s.Inv v) :
    ∃ v', s'.Inv v' := by
  cases hstep with
  | alloc id halloc =>
      exact ⟨v, h.alloc (alloc_grows h.follows.ok halloc) (alloc_loaded h.follows.ok halloc)⟩
  | free id hid hfree =>
      have ho := h.owned id hid
      rw [Pager.free_eq h.follows.ok.loads ho.1 ho.2.1] at hfree
      cases hfree
      exact ⟨v, h.free hid⟩
  | read id =>
      have hr := (Pager.readPage_spec h.follows.ok id).2
      obtain ⟨c, hc⟩ := hr.same
      have hok := hr.ok
      rw [hc] at hok ⊢
      exact ⟨v, h.withCache hok⟩
  | writePage id payload =>
      obtain ⟨c, hc, hok⟩ := writePage_end h.follows.ok id payload
      rw [hc]
      exact ⟨v, h.withCache hok⟩
  | commit hcommit =>
      obtain ⟨hrun, hinv⟩ := h.commit
      rw [hrun] at hcommit
      cases hcommit
      exact ⟨_, hinv⟩
  | reopen cacheBytes _ hopen =>
      obtain ⟨q, hq, -, -, -, -, -, -, hinv⟩ := h.reopen cacheBytes
      rw [hq] at hopen
      cases hopen
      exact ⟨v, hinv⟩

/-- The invariant holds in every session a run reaches. -/
theorem Run.inv (hrun : Run lossless s) : ∃ v, s.Inv v := by
  induction hrun with
  | create cacheBytes => exact ⟨_, inv_create cacheBytes⟩
  | step _ hstep ih =>
      obtain ⟨v, h⟩ := ih
      exact hstep.inv h

/-- **No page has two owners.** At every point of a run, however often the file is reopened, the
caller's pages, the free ids and the trunks are distinct pages of the file; `alloc` returns
neither a live page nor a trunk of the committed free list; and committing and reopening
succeed and leave a file that validates. -/
theorem allocator_safe (hrun : Run False s) :
    Apart s.live s.pager.freeSet s.pager.trunks s.pager.metadata.pageCount ∧
    Apart s.live s.pager.frees s.pager.trunkIds s.pager.metadata.pageCount ∧
    (∀ id p', s.pager.alloc = .ok id p' → id ∉ s.live ∧
      ∀ cacheBytes q free trunks, Pager.openImage s.pager.backend.current cacheBytes = .ok q →
        loadFreeList q.backend.current q.metadata = .ok (free, trunks) → id ∉ trunks) ∧
    (∃ p', s.pager.commit = .ok () p' ∧ ∃ stats, p'.validate = .ok stats) ∧
    ∀ cacheBytes, ∃ q, Pager.openImage s.pager.backend.current cacheBytes = .ok q ∧
      ∃ stats, q.validate = .ok stats := by
  obtain ⟨v, h⟩ := hrun.inv
  refine ⟨h.apart_fields, h.apart, fun id p' halloc => ?_, ?_, fun cacheBytes => ?_⟩
  · obtain ⟨hlive, htrunk⟩ := h.fresh (alloc_grows h.follows.ok halloc)
    refine ⟨hlive, fun cacheBytes q free trunks hopen hload => ?_⟩
    obtain ⟨q', hq', -, -, -, hlists, -⟩ := h.reopen cacheBytes
    rw [hq'] at hopen
    cases hopen
    rw [hlists] at hload
    cases hload
    exact htrunk
  · obtain ⟨hcommit, hinv⟩ := h.commit
    exact ⟨_, hcommit, _, Pager.validate_of_stored hinv.stored rfl hinv.len⟩
  · obtain ⟨q, hq, -, -, hm, -, hslot, hback, hinv⟩ := h.reopen cacheBytes
    refine ⟨q, hq, _, Pager.validate_of_stored (v := v) ?_ hm h.len⟩
    rw [hback, hslot]
    exact h.stored

/-- Page 2 was handed out and freed again. -/
def freed : Session Unit where
  pager := Lib.endState ((do Pager.free (← Pager.alloc)) (Pager.create 0))
  live := []
  saved := []
  superseded := []

theorem run_freed (lossless : Prop) : Run lossless freed := by
  have h₁ : Run lossless
      ({ create 0 with
        pager := Lib.endState (Pager.alloc (Pager.create 0))
        live := [2] } : Session Unit) :=
    .step (.create 0) (.alloc 2 rfl)
  exact .step h₁ (.free 2 (List.mem_singleton_self 2) rfl)

/-- The commit that turned it into the trunk of the free list. -/
def once : Session Unit where
  pager := Lib.endState (Pager.commit freed.pager)
  live := []
  saved := []
  superseded := []

theorem run_once (lossless : Prop) : Run lossless once := .step (run_freed lossless) (.commit rfl)

theorem allocator_safe_once : (∃ stats, once.pager.validate = .ok stats) ∧
    ∃ p', once.pager.commit = .ok () p' ∧ ∃ stats, p'.validate = .ok stats := by
  refine ⟨?_, (allocator_safe (run_once False)).2.2.2.1⟩
  obtain ⟨p', hcommit, hvalid⟩ := (allocator_safe (run_freed False)).2.2.2.1
  have : once.pager = p' := by
    change Lib.endState (Pager.commit freed.pager) = p'
    rw [hcommit]
    rfl
  rw [this]
  exact hvalid

/-! ## Pages lost by a reopening -/

/-- Every page of the file is live, free or a trunk. -/
def Covered (live free trunks : List Nat) (pageCount : Nat) : Prop :=
  ∀ id, firstDataPage ≤ id → id < pageCount → id ∈ live ++ (free ++ trunks)

/-- In memory nothing is lost; on disk only the superseded trunks may be. -/
structure Full (s : Session α) (v : Version α) : Prop where
  now : Covered s.live s.pager.frees s.pager.trunkIds s.pager.metadata.pageCount
  stored : Covered (s.saved ++ s.superseded) v.free v.trunkIds v.metadata.pageCount

omit [Payload α] in
theorem full_create (cacheBytes : Nat) :
    (create cacheBytes : Session α).Full Version.initial := by
  refine ⟨fun id hlo hhi => ?_, fun id hlo hhi => ?_⟩
  · change id < firstDataPage at hhi
    omega
  · change id < firstDataPage at hhi
    omega

omit [Payload α] in
theorem Full.alloc {v : Version α} (h : s.Full v) {p' : Pager α} {id : Nat}
    (hg : Pager.Grows s.pager p' [id]) :
    Covered (id :: s.live) p'.frees p'.trunkIds p'.metadata.pageCount := by
  intro id' hlo hhi
  have hcount := hg.count
  have hpool : id' ∈ p'.frees ++ [id] ∨ id' ∈ s.live ∨ id' ∈ s.pager.trunkIds := by
    by_cases hold : id' < s.pager.metadata.pageCount
    · have hmem := h.now id' hlo hold
      rw [List.mem_append, List.mem_append] at hmem
      rcases hmem with hl | hf | ht
      · exact .inr (.inl hl)
      · exact .inl (hg.pages.symm.subset (List.mem_append_left _ hf))
      · exact .inr (.inr ht)
    · refine .inl (hg.pages.symm.subset (List.mem_append_right _ ?_))
      exact List.mem_range'_1.mpr (by omega)
  rw [hg.trunks, List.mem_append, List.mem_append, List.mem_cons]
  rcases hpool with hmem | hl | ht
  · rcases List.mem_append.mp hmem with hf | hnew
    · exact .inr (.inl hf)
    · exact .inl (.inl (List.mem_singleton.mp hnew))
  · exact .inl (.inr hl)
  · exact .inr (.inr ht)

/-- A caller that reopens only after a commit that replaced no trunks loses no page. -/
theorem Step.full (hstep : Step True s s') {v : Version α} (h : s.Inv v) (hf : s.Full v) :
    ∃ v', s'.Inv v' ∧ s'.Full v' := by
  cases hstep with
  | alloc id halloc =>
      have hg := alloc_grows h.follows.ok halloc
      exact ⟨v, h.alloc hg (alloc_loaded h.follows.ok halloc), hf.alloc hg, hf.stored⟩
  | free id hid hfree =>
      have ho := h.owned id hid
      rw [Pager.free_eq h.follows.ok.loads ho.1 ho.2.1] at hfree
      cases hfree
      refine ⟨v, h.free hid, fun id' hlo hhi => ?_, hf.stored⟩
      have hmem := hf.now id' hlo hhi
      change id' ∈ s.live.erase id ++ ((s.pager.frees ++ [id]) ++ s.pager.trunkIds)
      simp only [List.mem_append, List.mem_singleton] at hmem ⊢
      -- the freed page moves from the live pages to the free list, the others stay
      rcases hmem with hl | hfree | ht
      · by_cases hid' : id' = id
        · exact .inr (.inl (.inr hid'))
        · exact .inl ((List.mem_erase_of_ne hid').mpr hl)
      · exact .inr (.inl (.inl hfree))
      · exact .inr (.inr ht)
  | read id =>
      have hr := (Pager.readPage_spec h.follows.ok id).2
      obtain ⟨c, hc⟩ := hr.same
      have hok := hr.ok
      rw [hc] at hok ⊢
      exact ⟨v, h.withCache hok, hf.now, hf.stored⟩
  | writePage id payload =>
      obtain ⟨c, hc, hok⟩ := writePage_end h.follows.ok id payload
      rw [hc]
      exact ⟨v, h.withCache hok, hf.now, hf.stored⟩
  | commit hcommit =>
      obtain ⟨hrun, hinv⟩ := h.commit
      rw [hrun] at hcommit
      cases hcommit
      refine ⟨_, hinv, fun id hlo hhi => ?_, fun id hlo hhi => ?_⟩
      · have hcount : id < s.pager.metadata.pageCount := by
          rw [← s.pager.afterCommit_count]
          exact hhi
        rcases List.mem_append.mp (hf.now id hlo hcount) with hl | hrest
        · exact List.mem_append_left _ hl
        · exact List.mem_append_right _ (s.pager.afterCommit_pages.symm.subset hrest)
      · have hcount : id < s.pager.metadata.pageCount := by
          change id < s.pager.rebuilt.metadata.pageCount at hhi
          rw [Pager.rebuilt_eq] at hhi
          exact hhi
        -- the new version stores the pages that are free now, and the dead trunks as superseded
        have hmem := hf.now id hlo hcount
        have hperm : s.pager.frees ⊆ (s.pager.nextVersion (· ∈ s.live)).free ++
            (s.pager.nextVersion (· ∈ s.live)).trunkIds :=
          (s.pager.frees_perm.trans (((List.reverse_perm _).symm.flatMap_right _).append
            ((List.reverse_perm _).symm.map _))).subset
        rw [List.mem_append, List.mem_append] at hmem
        rcases hmem with hl | hfree | ht
        · exact List.mem_append_left _ (List.mem_append_left _ hl)
        · exact List.mem_append_right _ (hperm hfree)
        · exact List.mem_append_left _ (List.mem_append_right _ ht)
  | reopen cacheBytes hlossless hopen =>
      obtain ⟨q, hq, hfrees, htrunks, hm, -, -, -, hinv⟩ := h.reopen cacheBytes
      rw [hq] at hopen
      cases hopen
      -- no superseded page is lost by hypothesis, so what the file covers is everything
      refine ⟨v, hinv, fun id hlo hhi => ?_, hf.stored⟩
      have hmem := hf.stored id hlo (by rw [← hm]; exact hhi)
      rw [hlossless trivial, List.append_nil] at hmem
      change id ∈ s.saved ++ (Pager.frees _ ++ Pager.trunkIds _)
      rw [hfrees, htrunks]
      exact hmem

/-- In a run that loses no page, every page is accounted for throughout. -/
theorem Run.full (hrun : Run True s) : ∃ v, s.Inv v ∧ s.Full v := by
  induction hrun with
  | create cacheBytes => exact ⟨_, inv_create cacheBytes, full_create cacheBytes⟩
  | step _ hstep ih =>
      obtain ⟨v, h, hf⟩ := ih
      exact hstep.full h hf

omit [Payload α] in
/-- Reopening gives back the pages of the last commit, all of them exactly if that commit
replaced no trunks. -/
theorem Inv.covered_reopen_iff {v : Version α} (h : s.Inv v) (hf : s.Full v) :
    Covered s.saved v.free v.trunkIds v.metadata.pageCount ↔ s.superseded = [] := by
  constructor
  · intro hcovered
    refine List.eq_nil_iff_forall_not_mem.mpr fun id hid => ?_
    obtain ⟨hlo, hhi, hsaved, hlists⟩ := h.superseded id hid
    rcases List.mem_append.mp (hcovered id hlo hhi) with hmem | hmem
    · exact hsaved hmem
    · exact hlists hmem
  · intro hnone
    have := hf.stored
    rwa [hnone, List.append_nil] at this

/-- **Which reopenings lose pages.** The file reopened after a commit holds the same ids in its
free list and trunks as the closed pager exactly if there were no trunks before that commit. A
session in which every reopening follows such a commit never loses a page, and the first
reopening that follows another does. -/
theorem reopen_keeps_pages :
    (∀ (s : Session α) (p' q : Pager α) (cacheBytes : Nat) (free trunks : List Nat),
      Run False s → s.pager.commit = .ok () p' →
      Pager.openImage p'.backend.current cacheBytes = .ok q →
      loadFreeList q.backend.current q.metadata = .ok (free, trunks) →
      ((∀ id, id ∈ free ++ trunks ↔ id ∈ p'.freeSet ++ p'.trunks) ↔ s.pager.trunkIds = [])) ∧
    ∀ s : Session α, Run True s →
      Covered s.live s.pager.frees s.pager.trunkIds s.pager.metadata.pageCount ∧
      ∀ (cacheBytes : Nat) (q : Pager α),
        Pager.openImage s.pager.backend.current cacheBytes = .ok q →
        (Covered s.saved q.frees q.trunkIds q.metadata.pageCount ↔ s.superseded = []) := by
  refine ⟨fun s p' q cacheBytes free trunks hrun hcommit hopen hload => ?_, fun s hrun => ?_⟩
  · obtain ⟨v, h⟩ := hrun.inv
    obtain ⟨hok, hinv⟩ := h.commit
    rw [hok] at hcommit
    cases hcommit
    obtain ⟨q', hq, -, -, -, hlists, -⟩ := hinv.reopen cacheBytes
    rw [hq] at hopen
    cases hopen
    rw [hlists] at hload
    cases hload
    -- the file lists the free pages of before the commit
    have hstored : ∀ id, id ∈ (s.pager.nextVersion (· ∈ s.live)).free ++
        (s.pager.nextVersion (· ∈ s.live)).trunkIds ↔ id ∈ s.pager.frees := fun id =>
      ((((List.reverse_perm _).flatMap_right _).append ((List.reverse_perm _).map _)).trans
        s.pager.frees_perm.symm).mem_iff
    -- the running pager lists those and the trunks that the commit killed
    have hmemory : ∀ id, id ∈ s.pager.afterCommit.freeSet ++ s.pager.afterCommit.trunks ↔
        id ∈ s.pager.frees ++ s.pager.trunkIds := fun id => by
      have := s.pager.afterCommit_pages.mem_iff (a := id)
      rwa [Pager.frees, Pager.trunkIds, Pager.lists, if_pos] at this
      change s.pager.rebuilt.freeLoaded = true
      rw [Pager.rebuilt_eq]
      rfl
    constructor
    · intro hsame
      refine List.eq_nil_iff_forall_not_mem.mpr fun id hid => ?_
      have hmem := (hsame id).mpr ((hmemory id).mpr (List.mem_append_right _ hid))
      exact h.follows.ok.not_mem_trunks ((hstored id).mp hmem) hid
    · intro hnone id
      rw [hstored, hmemory, hnone, List.append_nil]
  · obtain ⟨v, h, hf⟩ := hrun.full
    refine ⟨hf.now, fun cacheBytes q hopen => ?_⟩
    obtain ⟨q', hq, hfrees, htrunks, hm, -⟩ := h.reopen cacheBytes
    rw [hq] at hopen
    cases hopen
    rw [hfrees, htrunks, hm]
    exact h.covered_reopen_iff hf

/-- A first commit replaces no trunks: page 2 is still the trunk after a reopening. -/
theorem reopen_keeps_pages_freed : ∀ q free trunks,
    Pager.openImage once.pager.backend.current 0 = .ok q →
    loadFreeList q.backend.current q.metadata = .ok (free, trunks) →
    ∀ id, id ∈ free ++ trunks ↔ id ∈ once.pager.freeSet ++ once.pager.trunks :=
  fun q free trunks hopen hload =>
    (reopen_keeps_pages.1 freed once.pager q 0 free trunks (run_freed False) rfl hopen
      hload).mpr rfl

/-- The second commit replaces the trunk. In memory page 2 is free again; the reopened file
knows nothing of it. -/
theorem reopen_loses_page : ∃ (s : Session Unit) (p' q : Pager Unit) (free trunks : List Nat),
    Run False s ∧ s.pager.commit = .ok () p' ∧
      Pager.openImage p'.backend.current 0 = .ok q ∧
      loadFreeList q.backend.current q.metadata = .ok (free, trunks) ∧
      q.metadata.pageCount = 3 ∧ p'.freeSet ++ p'.trunks = [2] ∧ free ++ trunks = [] :=
  ⟨once, Lib.endState (Pager.commit once.pager),
    Pager.adopt (Lib.endState (Pager.commit once.pager)).backend.current 0
      (Lib.endState (Pager.commit once.pager)).metadata 0, [], [], run_once False, rfl, rfl, rfl,
    rfl, rfl, rfl⟩

end Runs

end Session
end Edb
