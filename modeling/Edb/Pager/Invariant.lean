import Mathlib.Data.List.Perm.Basic
import Mathlib.Data.List.Perm.Subperm
import Mathlib.Data.List.Range
import Edb.Lib.Simulation
import Edb.Pager.Pager

/-!
# The pager's invariant, and what its operations guarantee

`Pager.Ok` is the invariant of the in-memory state: the free ids and the trunks are distinct
page ids of the file, and the cache is coherent with the file. The layers above see a pager
through three notions derived from its state:

* `view p id`: the frame page `id` reads as;
* `Owned p id`: page `id` has been handed out and not returned, so it belongs to the caller;
* `Grows p p' new`: from `p` to `p'` the pages `new` were handed out, and nothing the caller
  owned before was touched.

A free list that has not been loaded yet is treated as the one loading would produce.
-/

namespace Edb

variable {α : Type}

namespace Pager

/-- The free ids and trunks, loaded from the trunk chain if they have not been yet. -/
def lists (p : Pager α) : List Nat × List Nat :=
  if p.freeLoaded then (p.freeSet, p.trunks)
  else
    match loadFreeList p.backend.current p.metadata with
    | .ok r => r
    | .error _ => ([], [])

def frees (p : Pager α) : List Nat := p.lists.1

def trunkIds (p : Pager α) : List Nat := p.lists.2

/-- The frame a page reads as. -/
def view (p : Pager α) (id : Nat) : Option (Frame α) :=
  PageCache.reads p.backend.current.frameAt p.cache.entries id

/-- The page has staged content the next commit will flush. -/
def IsDirty (p : Pager α) (id : Nat) : Prop := PageCache.IsDirty p.cache.entries id

/-- The invariant of the in-memory state. -/
structure Ok (p : Pager α) : Prop where
  loads : p.freeLoaded = false → ∃ r, loadFreeList p.backend.current p.metadata = .ok r
  nodup : (p.frees ++ p.trunkIds).Nodup
  range : ∀ id ∈ p.frees ++ p.trunkIds, firstDataPage ≤ id ∧ id < p.metadata.pageCount
  count : firstDataPage ≤ p.metadata.pageCount
  coherent : PageCache.Coherent p.backend.current.frameAt p.cache.entries
  resident : ∀ id e, PageCache.find p.cache.entries id = some e →
    firstDataPage ≤ id ∧ id < p.metadata.pageCount

/-- The page has been handed out by `alloc` and not returned since. -/
def Owned (p : Pager α) (id : Nat) : Prop :=
  firstDataPage ≤ id ∧ id < p.metadata.pageCount ∧ id ∉ p.frees ∧ id ∉ p.trunkIds

theorem create_ok (cacheBytes : Nat) : (create cacheBytes : Pager α).Ok where
  loads := by intro h; cases h
  nodup := List.nodup_nil
  range := by intro id hid; cases hid
  count := le_refl _
  coherent := ⟨List.nodup_nil, (by intro id e h; cases h), (by intro id e h; cases h)⟩
  resident := by intro id e h; cases h

/-! ## Reads -/

/-- The cache agrees with the file. -/
def Coherent (p : Pager α) : Prop :=
  PageCache.Coherent p.backend.current.frameAt p.cache.entries

/-- Only the cache moved, it still agrees with the file, and no page reads differently. Nothing is
asked of the free list. -/
structure Peeks (p p' : Pager α) : Prop where
  same : ∃ c, p' = { p with cache := c }
  coherent : p'.Coherent
  view : ∀ id, p'.view id = p.view id
  dirty : ∀ id, p'.IsDirty id ↔ p.IsDirty id
  resident : ∀ id, PageCache.find p'.cache.entries id ≠ none →
    PageCache.find p.cache.entries id ≠ none ∨ firstDataPage ≤ id ∧ id < p.metadata.pageCount

theorem Peeks.refl {p : Pager α} (h : p.Coherent) : Peeks p p :=
  ⟨⟨p.cache, rfl⟩, h, fun _ => rfl, fun _ => Iff.rfl, fun _ h => .inl h⟩

theorem Peeks.trans {p p' p'' : Pager α} (h₁ : Peeks p p') (h₂ : Peeks p' p'') : Peeks p p'' := by
  obtain ⟨c, rfl⟩ := h₁.same
  obtain ⟨c', hc'⟩ := h₂.same
  exact ⟨⟨c', hc'⟩, h₂.coherent, fun id => (h₂.view id).trans (h₁.view id),
    fun id => (h₂.dirty id).trans (h₁.dirty id), fun id hid =>
      (h₂.resident id hid).elim (h₁.resident id) .inr⟩

/-- Only the cache moved, and no page reads differently. -/
structure Reads (p p' : Pager α) : Prop where
  same : ∃ c, p' = { p with cache := c }
  ok : p'.Ok
  view : ∀ id, p'.view id = p.view id
  dirty : ∀ id, p'.IsDirty id ↔ p.IsDirty id

theorem Reads.refl {p : Pager α} (h : p.Ok) : Reads p p :=
  ⟨⟨p.cache, rfl⟩, h, fun _ => rfl, fun _ => Iff.rfl⟩

theorem Reads.trans {p p' p'' : Pager α} (h₁ : Reads p p') (h₂ : Reads p' p'') : Reads p p'' := by
  obtain ⟨c, rfl⟩ := h₁.same
  obtain ⟨c', hc'⟩ := h₂.same
  exact ⟨⟨c', hc'⟩, h₂.ok, fun id => (h₂.view id).trans (h₁.view id),
    fun id => (h₂.dirty id).trans (h₁.dirty id)⟩

/-- Replacing the cache by a coherent one over the same pages, with the same reads. -/
theorem Ok.withCache {p : Pager α} (hp : p.Ok) {c : PageCache α}
    (hc : PageCache.Coherent p.backend.current.frameAt c.entries)
    (hres : ∀ id e, PageCache.find c.entries id = some e →
      firstDataPage ≤ id ∧ id < p.metadata.pageCount) : Ok { p with cache := c } :=
  ⟨hp.loads, hp.nodup, hp.range, hp.count, hc, hres⟩

/-- Peeking keeps the invariant. -/
theorem Peeks.reads {p p' : Pager α} (h : Peeks p p') (hp : p.Ok) : Reads p p' := by
  have hres := h.resident
  have hcoh := h.coherent
  obtain ⟨c, rfl⟩ := h.same
  refine ⟨⟨c, rfl⟩, hp.withCache hcoh fun id e he => ?_, h.view, h.dirty⟩
  rcases hres id (by rw [he]; exact Option.some_ne_none _) with hold | hrange
  · obtain ⟨e', he'⟩ := Option.ne_none_iff_exists'.mp hold
    exact hp.resident id e' he'
  · exact hrange

/-- What a page is fetched as: from the cache, or read and verified. -/
def fetched (p : Pager α) (id : Nat) : Except PagerError (Frame α) :=
  match p.view id with
  | some f => .ok f
  | none => p.backend.current.readAt id

/-- Fetching a page of the file returns what it reads as, and only moves the cache. -/
theorem fetch_peeks {p : Pager α} (hc : p.Coherent) {id : Nat} (hlo : firstDataPage ≤ id)
    (hhi : id < p.metadata.pageCount) :
    Lib.Simulates (fun p (_ : List Unit) p' => Peeks p p') (fetch id) p (p.fetched id)
      fun f f' _ _ => f = f' := by
  obtain ⟨hget, hcoh, hreads, hdirty⟩ := PageCache.get_spec hc id
  have hres : ∀ id', PageCache.find (p.cache.get id).2.entries id' ≠ none →
      PageCache.find p.cache.entries id' ≠ none := fun id' h => PageCache.resident_get p.cache id h
  have hmoved : Peeks p { p with cache := (p.cache.get id).2 } :=
    ⟨⟨_, rfl⟩, hcoh, hreads, hdirty, fun id' h => .inl (hres id' h)⟩
  rw [PageCache.entry_eq_find] at hget
  unfold fetched view PageCache.reads
  cases hfind : PageCache.find p.cache.entries id with
  | some e =>
      rw [hfind] at hget
      have hpair : p.cache.get id = (some e.frame, (p.cache.get id).2) := Prod.ext hget rfl
      refine ⟨e.frame, _, [], ?_, hmoved, rfl⟩
      unfold fetch
      rw [Lib.bind_of_ok (Lib.get_apply p), hpair]
      rfl
  | none =>
      rw [hfind] at hget
      have hpair : p.cache.get id = (none, (p.cache.get id).2) := Prod.ext hget rfl
      simp only
      cases hread : p.backend.current.readAt id with
      | ok f =>
          -- a miss that the file can serve: the frame is cached clean
          have hf := Image.readAt_eq_ok.mp hread
          have hfid := Image.id_of_frameAt hf
          have hmiss : (p.cache.get id).2.entry f.id = none := by
            rw [PageCache.entry_eq_find, hfid]
            by_contra hne
            exact hres id hne hfind
          obtain ⟨hcoh', hreads', hdirty'⟩ :=
            PageCache.insert_clean_spec hcoh hmiss (by rw [hfid]; exact hf)
          rw [hfid] at hcoh' hreads' hdirty'
          rw [hf]
          refine ⟨f, { p with cache := (p.cache.get id).2.insert id f false }, [], ?_,
            ⟨⟨_, rfl⟩, hcoh', fun id' => (hreads' id').trans (hreads id'),
              fun id' => (hdirty' id').trans (hdirty id'), fun id' h => ?_⟩, rfl⟩
          · unfold fetch
            rw [Lib.bind_of_ok (Lib.get_apply p), hpair]
            simp only [hread]
            rfl
          · rcases PageCache.resident_insert _ id f false h with rfl | hne
            · exact .inr ⟨hlo, hhi⟩
            · exact .inl (hres id' hne)
      | error e =>
          have hfile : p.backend.current.frameAt id = none := by
            rw [Option.eq_none_iff_forall_ne_some]
            intro f hf
            rw [Image.readAt_eq_ok.mpr hf] at hread
            cases hread
          rw [hfile]
          refine ⟨{ p with cache := (p.cache.get id).2 }, [], ?_, hmoved⟩
          unfold fetch
          rw [Lib.bind_of_ok (Lib.get_apply p), hpair]
          simp only [hread]
          rfl

/-- What reading a page reports. -/
def shown (p : Pager α) (id : Nat) : Except PagerError (Frame α) :=
  if id < firstDataPage ∨ id ≥ p.metadata.pageCount then
    .error (.pageOutOfRange id p.metadata.pageCount)
  else p.fetched id

theorem Peeks.shown {p p' : Pager α} (h : Peeks p p') : p'.shown = p.shown := by
  funext id
  have hview := h.view id
  obtain ⟨c, rfl⟩ := h.same
  unfold Pager.shown fetched
  rw [hview]

theorem inRange_eq {p : Pager α} {id : Nat} (hlo : firstDataPage ≤ id)
    (hhi : id < p.metadata.pageCount) : inRange id p = .ok () p := by
  unfold inRange
  rw [Lib.bind_of_ok (Lib.get_apply p), if_neg (by omega)]
  rfl

/-- A page outside the data pages of the file is refused. -/
theorem inRange_error {p : Pager α} {id : Nat}
    (h : id < firstDataPage ∨ id ≥ p.metadata.pageCount) :
    inRange id p = .error (.pageOutOfRange id p.metadata.pageCount) p := by
  unfold inRange
  rw [Lib.bind_of_ok (Lib.get_apply p), if_pos h]
  rfl

theorem readPage_eq (p : Pager α) (id : Nat) : readPage id p =
    if id < firstDataPage ∨ id ≥ p.metadata.pageCount then
      .error (.pageOutOfRange id p.metadata.pageCount) p
    else fetch id p := by
  unfold readPage
  by_cases h : id < firstDataPage ∨ id ≥ p.metadata.pageCount
  · rw [if_pos h]
    exact Lib.bind_of_error (inRange_error h)
  · rw [if_neg h]
    exact Lib.bind_of_ok (inRange_eq (by omega) (by omega))

/-- A read shows the page as it stands and changes nothing a later read could see. -/
theorem readPage_peeks {p : Pager α} (hc : p.Coherent) (id : Nat) :
    Lib.Simulates (fun p (_ : List Unit) p' => Peeks p p') (readPage id) p (p.shown id)
      fun f f' _ _ => f = f' := by
  have hrun := readPage_eq p id
  unfold Pager.shown
  by_cases h : id < firstDataPage ∨ id ≥ p.metadata.pageCount
  · rw [if_pos h] at hrun ⊢
    exact ⟨p, [], hrun, Peeks.refl hc⟩
  · rw [if_neg h] at hrun ⊢
    have hfetch := fetch_peeks hc (show firstDataPage ≤ id by omega) (by omega)
    unfold Lib.Simulates at hfetch ⊢
    rw [hrun]
    exact hfetch

/-- Reading a page returns what it reads as, or fails if nothing valid is there; nothing any
page reads as changes. -/
theorem readPage_spec {p : Pager α} (hp : p.Ok) (id : Nat) :
    (firstDataPage ≤ id → id < p.metadata.pageCount → ∀ f, p.view id = some f →
      ∃ p', readPage id p = .ok f p' ∧ Reads p p') ∧
    Reads p (Lib.endState (readPage id p)) := by
  have hrun := readPage_peeks hp.coherent id
  constructor
  · intro hlo hhi f hf
    have hshown : p.shown id = .ok f := by
      unfold Pager.shown fetched
      rw [if_neg (by omega), hf]
    rw [hshown] at hrun
    obtain ⟨f', p', -, hread, hpeeks, rfl⟩ := hrun
    exact ⟨p', hread, hpeeks.reads hp⟩
  · cases hshown : p.shown id with
    | ok f =>
        rw [hshown] at hrun
        obtain ⟨f', p', -, hread, hpeeks, -⟩ := hrun
        rw [hread]
        exact hpeeks.reads hp
    | error e =>
        rw [hshown] at hrun
        obtain ⟨p', -, hread, hpeeks⟩ := hrun
        rw [hread]
        exact hpeeks.reads hp

/-! ## The free list in memory -/

/-- The pager with its free list loaded. -/
def load (p : Pager α) : Pager α :=
  { p with freeSet := p.frees, trunks := p.trunkIds, freeLoaded := true }

@[simp] theorem load_frees (p : Pager α) : p.load.frees = p.frees := rfl

@[simp] theorem load_trunkIds (p : Pager α) : p.load.trunkIds = p.trunkIds := rfl

@[simp] theorem load_metadata (p : Pager α) : p.load.metadata = p.metadata := rfl

theorem Ok.load {p : Pager α} (hp : p.Ok) : p.load.Ok where
  loads := by intro h; cases h
  nodup := hp.nodup
  range := hp.range
  count := hp.count
  coherent := hp.coherent
  resident := hp.resident

/-- Where the free list loads, it is loaded once and kept. -/
theorem ensureFreeLoaded_eq {p : Pager α}
    (hloads : p.freeLoaded = false → ∃ r, loadFreeList p.backend.current p.metadata = .ok r) :
    ensureFreeLoaded p = .ok () p.load := by
  unfold ensureFreeLoaded
  rw [Lib.bind_of_ok (Lib.get_apply p)]
  cases hl : p.freeLoaded with
  | true =>
      have hlists : p.lists = (p.freeSet, p.trunks) := if_pos hl
      have hload : p.load = p := by
        unfold Pager.load frees trunkIds
        rw [hlists, ← hl]
      rw [hload]
      rfl
  | false =>
      obtain ⟨⟨free, trunks⟩, hr⟩ := hloads hl
      have : p.load = { p with freeSet := free, trunks := trunks, freeLoaded := true } := by
        simp [Pager.load, frees, trunkIds, lists, hl, hr]
      rw [this]
      simp only [hr]
      rfl

/-! ## Growth -/

/-- An interval of page ids splits at any point inside it. -/
theorem range'_split {a b c : Nat} (hab : a ≤ b) (hbc : b ≤ c) :
    List.range' a (c - a) = List.range' a (b - a) ++ List.range' b (c - b) := by
  obtain ⟨m, rfl⟩ := Nat.exists_eq_add_of_le hab
  obtain ⟨n, rfl⟩ := Nat.exists_eq_add_of_le hbc
  rw [Nat.add_sub_cancel_left, Nat.add_sub_cancel_left, List.range'_append_1]
  congr 1
  omega

/-- From `p` to `p'` exactly the pages `new` were handed out; pages owned before read the same,
the file and the committed state are untouched, and only new pages became dirty. -/
structure Grows (p p' : Pager α) (new : List Nat) : Prop where
  ok : p'.Ok
  view : ∀ id, p.Owned id → p'.view id = p.view id
  count : p.metadata.pageCount ≤ p'.metadata.pageCount
  pages : (p'.frees ++ new).Perm (p.frees ++
    List.range' p.metadata.pageCount (p'.metadata.pageCount - p.metadata.pageCount))
  trunks : p'.trunkIds = p.trunkIds
  log : p'.allocLog = p.allocLog.map (· ++ new)
  backend : p'.backend = p.backend
  header : p'.metadata = { p.metadata with pageCount := p'.metadata.pageCount }
  slot : p'.activeSlot = p.activeSlot
  txn : p'.txnId = p.txnId
  dirty : ∀ id, p'.IsDirty id → p.IsDirty id ∨ id ∈ new

theorem Ok.frees_nodup {p : Pager α} (hp : p.Ok) : p.frees.Nodup :=
  (List.nodup_append.mp hp.nodup).1

theorem Ok.not_mem_trunks {p : Pager α} (hp : p.Ok) {id : Nat} (h : id ∈ p.frees) :
    id ∉ p.trunkIds := fun ht => (List.nodup_append.mp hp.nodup).2.2 id h id ht rfl

/-- The pages an allocation may hand out are all different, free ones and new ones. -/
theorem Ok.pool_nodup {p : Pager α} (hp : p.Ok) (n : Nat) :
    (p.frees ++ List.range' p.metadata.pageCount n).Nodup := by
  refine List.nodup_append.mpr ⟨hp.frees_nodup, List.nodup_range', ?_⟩
  intro a ha b hb hab
  subst hab
  have h₁ := (hp.range a (List.mem_append_left _ ha)).2
  have h₂ := (List.mem_range'_1.mp hb).1
  omega

theorem Reads.grows {p p' : Pager α} (h : Reads p p') : Grows p p' [] := by
  obtain ⟨c, rfl⟩ := h.same
  refine ⟨h.ok, fun id _ => h.view id, Nat.le_refl _, ?_, rfl, ?_, rfl, rfl, rfl, rfl,
    fun id hd => .inl ((h.dirty id).mp hd)⟩
  · simp only [Nat.sub_self, List.range'_zero]
    exact List.Perm.refl _
  · cases p.allocLog <;> simp

theorem Grows.refl {p : Pager α} (hp : p.Ok) : Grows p p [] := (Reads.refl hp).grows

namespace Grows

variable {p p' p'' : Pager α} {new new' : List Nat}

theorem nodup (hp : p.Ok) (h : Grows p p' new) : (p'.frees ++ new).Nodup :=
  h.pages.nodup_iff.mpr (hp.pool_nodup _)

/-- A page handed out was not owned before. -/
theorem fresh (h : Grows p p' new) {id : Nat} (hid : id ∈ new) : ¬ p.Owned id := by
  rintro ⟨_, hlt, hf, _⟩
  have hmem := h.pages.subset (List.mem_append_right p'.frees hid)
  rcases List.mem_append.mp hmem with hmem | hmem
  · exact hf hmem
  · have := (List.mem_range'_1.mp hmem).1
    omega

/-- A page handed out is owned now. -/
theorem owned_of_new (hp : p.Ok) (h : Grows p p' new) {id : Nat} (hid : id ∈ new) :
    p'.Owned id := by
  have hmem := h.pages.subset (List.mem_append_right p'.frees hid)
  have hnf : id ∉ p'.frees := fun hf => (List.nodup_append.mp (h.nodup hp)).2.2 id hf id hid rfl
  have hcount := h.count
  rcases List.mem_append.mp hmem with hmem | hmem
  · have hr := hp.range id (List.mem_append_left _ hmem)
    exact ⟨hr.1, by omega, hnf, by rw [h.trunks]; exact hp.not_mem_trunks hmem⟩
  · have hr := List.mem_range'_1.mp hmem
    have hc := hp.count
    refine ⟨by omega, by omega, hnf, ?_⟩
    rw [h.trunks]
    intro ht
    have := (hp.range id (List.mem_append_right _ ht)).2
    omega

/-- No page stops being owned. -/
theorem owned_mono (h : Grows p p' new) {id : Nat} (hid : p.Owned id) : p'.Owned id := by
  obtain ⟨hlo, hhi, hf, ht⟩ := hid
  have hcount := h.count
  refine ⟨hlo, by omega, fun hm => ?_, by rw [h.trunks]; exact ht⟩
  rcases List.mem_append.mp (h.pages.subset (List.mem_append_left new hm)) with hm | hm
  · exact hf hm
  · have := (List.mem_range'_1.mp hm).1
    omega

/-- The pages owned are the old ones and the ones handed out. -/
theorem owned_iff (hp : p.Ok) (h : Grows p p' new) {id : Nat} :
    p'.Owned id ↔ p.Owned id ∨ id ∈ new := by
  refine ⟨fun hid => ?_, fun hid => hid.elim h.owned_mono (h.owned_of_new hp)⟩
  obtain ⟨hlo, hhi, hf, ht⟩ := hid
  by_cases hn : id ∈ new
  · exact .inr hn
  · refine .inl ⟨hlo, ?_, fun hm => ?_, by rw [← h.trunks]; exact ht⟩
    · by_contra hge
      have hmem : id ∈ p.frees ++
          List.range' p.metadata.pageCount (p'.metadata.pageCount - p.metadata.pageCount) :=
        List.mem_append_right _ (List.mem_range'_1.mpr (by omega))
      rcases List.mem_append.mp (h.pages.symm.subset hmem) with hm | hm
      · exact hf hm
      · exact hn hm
    · rcases List.mem_append.mp (h.pages.symm.subset (List.mem_append_left _ hm)) with hm | hm
      · exact hf hm
      · exact hn hm

/-- Growing twice is growing once by both. -/
theorem trans (h₁ : Grows p p' new) (h₂ : Grows p' p'' new') : Grows p p'' (new ++ new') := by
  have hc₁ := h₁.count
  have hc₂ := h₂.count
  refine ⟨h₂.ok, fun id hid => (h₂.view id (h₁.owned_mono hid)).trans (h₁.view id hid),
    Nat.le_trans hc₁ hc₂, ?_, h₂.trunks.trans h₁.trunks, ?_, h₂.backend.trans h₁.backend, ?_,
    h₂.slot.trans h₁.slot, h₂.txn.trans h₁.txn, fun id hid => ?_⟩
  · rw [range'_split hc₁ hc₂, List.perm_iff_count]
    intro a
    have e₁ := h₁.pages.count_eq a
    have e₂ := h₂.pages.count_eq a
    simp only [List.count_append] at e₁ e₂ ⊢
    omega
  · rw [h₂.log, h₁.log]
    cases p.allocLog <;> simp
  · rw [h₂.header, h₁.header]
  · rcases h₂.dirty id hid with hid | hid
    · rcases h₁.dirty id hid with hid | hid
      · exact .inl hid
      · exact .inr (List.mem_append_left _ hid)
    · exact .inr (List.mem_append_right _ hid)

end Grows

/-! ## Allocation -/

theorem Ok.shrinkFree {p : Pager α} (hp : p.Ok) {l : List Nat} {id : Nat}
    (hl : p.frees = l ++ [id]) (log : Option (List Nat)) :
    Ok { p.load with freeSet := l, allocLog := log } := by
  have hsub : (l ++ p.trunkIds).Sublist (p.frees ++ p.trunkIds) := by
    rw [hl]
    exact (List.sublist_append_left l [id]).append_right _
  exact ⟨(fun h => nomatch h), hp.nodup.sublist hsub,
    fun id' hid' => hp.range id' (hsub.subset hid'), hp.count, hp.coherent, hp.resident⟩

/-- `alloc` never fails on a well-formed pager and hands out a page nobody owned. -/
theorem alloc_spec {p : Pager α} (hp : p.Ok) :
    ∃ id p', alloc p = .ok id p' ∧ Grows p p' [id] ∧ p'.cache = p.cache := by
  unfold alloc
  rw [Lib.bind_of_ok (ensureFreeLoaded_eq hp.loads), Lib.bind_of_ok (Lib.get_apply _)]
  cases hlast : p.load.freeSet.getLast? with
  | some id =>
      have hl : p.frees = p.frees.dropLast ++ [id] := by
        obtain ⟨hne, heq⟩ := List.getLast?_eq_some_iff.mp hlast
        change p.frees = hne ++ [id] at heq
        rw [heq, List.dropLast_concat]
      refine ⟨id, _, rfl, ⟨hp.shrinkFree hl _, fun _ _ => rfl, Nat.le_refl _, ?_, rfl, rfl, rfl,
        rfl, rfl, rfl, fun id' hid' => .inl hid'⟩, rfl⟩
      change (p.frees.dropLast ++ [id]).Perm (p.frees ++ List.range' p.metadata.pageCount
        (p.metadata.pageCount - p.metadata.pageCount))
      rw [← hl, Nat.sub_self, List.range'_zero, List.append_nil]
  | none =>
      have hl : p.frees = [] := List.getLast?_eq_none_iff.mp hlast
      refine ⟨p.metadata.pageCount, _, rfl,
        ⟨⟨(fun h => nomatch h), hp.nodup, ?_, ?_, hp.coherent, ?_⟩, fun _ _ => rfl,
        Nat.le_succ _, ?_, rfl, rfl, rfl, rfl, rfl, rfl, fun id' hid' => .inl hid'⟩, rfl⟩
      · intro id hid
        have := hp.range id hid
        exact ⟨this.1, Nat.lt_succ_of_lt this.2⟩
      · exact Nat.le_succ_of_le hp.count
      · intro id e he
        have := hp.resident id e he
        exact ⟨this.1, Nat.lt_succ_of_lt this.2⟩
      · change (p.frees ++ [p.metadata.pageCount]).Perm (p.frees ++ List.range' p.metadata.pageCount
          (p.metadata.pageCount + 1 - p.metadata.pageCount))
        rw [Nat.add_sub_cancel_left]
        exact List.Perm.refl _

/-! ## Staging a page -/

/-- `p'` is `p` with `payload` staged at page `id`. -/
structure Staged (p p' : Pager α) (id : Nat) (payload : α) : Prop where
  same : ∃ c, p' = { p with cache := c }
  ok : p'.Ok
  view : ∀ id', p'.view id' =
    if id = id' then some { id := id, body := .data payload } else p.view id'
  dirty : ∀ id', p'.IsDirty id' ↔ id = id' ∨ p.IsDirty id'

/-- A write in range fails on its size or stages a dirty frame, and does nothing else. -/
theorem writePage_eq [Payload α] {p : Pager α} {id : Nat} (hlo : firstDataPage ≤ id)
    (hhi : id < p.metadata.pageCount) (payload : α) :
    writePage id payload p =
      if Payload.len payload > pagePayloadSize then
        .error (.payloadTooLarge (Payload.len payload) pagePayloadSize) p
      else .ok () { p with
        cache := p.cache.insert id { id := id, body := .data payload } true } := by
  unfold writePage
  rw [Lib.bind_of_ok (inRange_eq hlo hhi)]
  split <;> rfl

/-- A payload that fits is staged. -/
theorem writePage_spec [Payload α] {p : Pager α} (hp : p.Ok) {id : Nat} (hlo : firstDataPage ≤ id)
    (hhi : id < p.metadata.pageCount) {payload : α} (hlen : Payload.len payload ≤ pagePayloadSize) :
    ∃ p', writePage id payload p = .ok () p' ∧ Staged p p' id payload := by
  rw [writePage_eq hlo hhi, if_neg (by omega)]
  obtain ⟨hcoh, hreads, hdirty⟩ :=
    PageCache.insert_dirty_spec (f := { id := id, body := .data payload }) hp.coherent
  refine ⟨_, rfl, ⟨_, rfl⟩, hp.withCache hcoh ?_, hreads, hdirty⟩
  intro id' e he
  have hsome := Option.ne_none_iff_exists'.mpr ⟨e, he⟩
  rcases PageCache.resident_insert _ id _ true hsome with rfl | hne
  · exact ⟨hlo, hhi⟩
  · obtain ⟨e', he'⟩ := Option.ne_none_iff_exists'.mp hne
    exact hp.resident id' e' he'

/-- Staging content at a page just handed out keeps the growth it belongs to. -/
theorem Grows.stage {p p' p'' : Pager α} {new : List Nat} {id : Nat} {payload : α}
    (h : Grows p p' new) (hid : id ∈ new) (hs : Staged p' p'' id payload) : Grows p p'' new := by
  obtain ⟨c, rfl⟩ := hs.same
  refine ⟨hs.ok, fun id' hid' => ?_, h.count, h.pages, h.trunks, h.log, h.backend, h.header,
    h.slot, h.txn, fun id' hid' => ?_⟩
  · have hne : id ≠ id' := by
      rintro rfl
      exact h.fresh hid hid'
    rw [hs.view id', if_neg hne]
    exact h.view id' hid'
  · rcases (hs.dirty id').mp hid' with rfl | hid'
    · exact .inr hid
    · exact h.dirty id' hid'

/-! ## Returning a page -/

/-- A page in range joins the free list, whatever it holds. -/
theorem free_eq {p : Pager α}
    (hloads : p.freeLoaded = false → ∃ r, loadFreeList p.backend.current p.metadata = .ok r)
    {id : Nat} (hlo : firstDataPage ≤ id) (hhi : id < p.metadata.pageCount) :
    free id p = .ok () { p.load with freeSet := p.frees ++ [id] } := by
  unfold free
  rw [Lib.bind_of_ok (inRange_eq hlo hhi), Lib.bind_of_ok (ensureFreeLoaded_eq hloads)]
  rfl

/-- Returning an owned page keeps the invariant. -/
theorem Ok.free {p : Pager α} (hp : p.Ok) {id : Nat} (hid : p.Owned id) :
    Ok { p.load with freeSet := p.frees ++ [id] } := by
  obtain ⟨hlo, hhi, hf, ht⟩ := hid
  refine ⟨(fun h => nomatch h), ?_, ?_, hp.count, hp.coherent, hp.resident⟩
  · change ((p.frees ++ [id]) ++ p.trunkIds).Nodup
    have hperm : ((p.frees ++ [id]) ++ p.trunkIds).Perm (id :: (p.frees ++ p.trunkIds)) := by
      rw [List.append_assoc, List.singleton_append]
      exact List.perm_middle
    rw [hperm.nodup_iff, List.nodup_cons]
    refine ⟨fun hm => ?_, hp.nodup⟩
    rcases List.mem_append.mp hm with hm | hm
    · exact hf hm
    · exact ht hm
  · intro id' hid'
    change id' ∈ (p.frees ++ [id]) ++ p.trunkIds at hid'
    rcases List.mem_append.mp hid' with hm | hm
    · rcases List.mem_append.mp hm with hm | hm
      · exact hp.range id' (List.mem_append_left _ hm)
      · rw [List.mem_singleton.mp hm]
        exact ⟨hlo, hhi⟩
    · exact hp.range id' (List.mem_append_right _ hm)

end Pager

end Edb
