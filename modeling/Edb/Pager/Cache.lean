import Mathlib.Data.List.Nodup
import Edb.Pager.Page

/-!
# The page cache

A byte-budgeted cache with least-recently-used eviction. Dirty frames are pinned until the
next commit flushes them, so eviction only drops clean entries; if every entry is dirty the
cache exceeds its budget.

The one fact the pager relies on is stated against the store behind the cache: `Coherent`
says that a clean entry repeats what the store holds. Every operation keeps it, and under it
the frame a page reads as (`lookup`, falling back to the store) does not depend on eviction.
-/

namespace Edb

/-- A cached frame. -/
structure CacheEntry (α : Type) where
  frame : Frame α
  dirty : Bool
  tick : Nat

/-- Resident pages, one entry per page id. -/
structure PageCache (α : Type) where
  entries : List (Nat × CacheEntry α)
  budgetBytes : Nat
  tick : Nat

namespace PageCache

variable {α : Type}

def new (budgetBytes : Nat) : PageCache α where
  entries := []
  budgetBytes := budgetBytes
  tick := 0

/-- The resident entry of a page. -/
def entry (c : PageCache α) (id : Nat) : Option (CacheEntry α) :=
  (c.entries.find? (fun e => e.1 == id)).map Prod.snd

/-- Replace an entry in place, or add it. -/
def put (entries : List (Nat × CacheEntry α)) (id : Nat) (e : CacheEntry α) :
    List (Nat × CacheEntry α) :=
  if entries.any (fun p => p.1 == id) then
    entries.map (fun p => if p.1 == id then (id, e) else p)
  else entries ++ [(id, e)]

/-- Fetch a cached frame, marking it most-recently-used. -/
def get (c : PageCache α) (id : Nat) : Option (Frame α) × PageCache α :=
  let tick := c.tick + 1
  match c.entry id with
  | none => (none, { c with tick := tick })
  | some e =>
      (some e.frame, { c with entries := put c.entries id { e with tick := tick }, tick := tick })

/-- The least-recently-used clean entry among `entries`. -/
def victim (entries : List (Nat × CacheEntry α)) : Option (Nat × CacheEntry α) :=
  entries.foldl (fun best e =>
    if e.2.dirty then best
    else match best with
      | none => some e
      | some b => if e.2.tick < b.2.tick then some e else some b) none

/-- Drop clean entries, oldest first, until the rest fits the budget. -/
def evictLoop (budget : Nat) :
    Nat → List (Nat × CacheEntry α) → List (Nat × CacheEntry α)
  | 0, entries => entries
  | fuel + 1, entries =>
      if entries.length * pageSize > budget then
        match victim entries with
        | some v => evictLoop budget fuel (entries.filter (fun e => e.1 != v.1))
        | none => entries
      else entries

def evictToBudget (c : PageCache α) : PageCache α :=
  { c with entries := evictLoop c.budgetBytes c.entries.length c.entries }

/-- The entry an insertion leaves: re-inserting never clears an existing dirty flag. -/
def inserted (c : PageCache α) (id : Nat) (frame : Frame α) (dirty : Bool) : CacheEntry α where
  frame := frame
  dirty := match c.entry id with
    | some old => old.dirty || dirty
    | none => dirty
  tick := c.tick + 1

/-- Insert or replace a frame. -/
def insert (c : PageCache α) (id : Nat) (frame : Frame α) (dirty : Bool) : PageCache α :=
  evictToBudget
    { c with entries := put c.entries id (c.inserted id frame dirty), tick := c.tick + 1 }

/-- All currently dirty frames, for the commit flush. -/
def dirtyPages (c : PageCache α) : List (Nat × Frame α) :=
  (c.entries.filter (fun e => e.2.dirty)).map (fun e => (e.1, e.2.frame))

/-- Mark every entry clean. -/
def clearDirty (c : PageCache α) : PageCache α :=
  { c with entries := c.entries.map (fun e => (e.1, { e.2 with dirty := false })) }

/-! ## Entries as a finite map -/

/-- Each page has one entry. -/
def Keyed (c : PageCache α) : Prop := (c.entries.map Prod.fst).Nodup

/-- The entry of a page in an entry list. -/
def find (entries : List (Nat × CacheEntry α)) (id : Nat) : Option (CacheEntry α) :=
  (entries.find? (fun e => e.1 == id)).map Prod.snd

theorem entry_eq_find (c : PageCache α) (id : Nat) : c.entry id = find c.entries id := rfl

@[simp] theorem find_nil (id : Nat) : find ([] : List (Nat × CacheEntry α)) id = none := rfl

theorem find_cons (p : Nat × CacheEntry α) (l : List (Nat × CacheEntry α)) (id : Nat) :
    find (p :: l) id = if p.1 = id then some p.2 else find l id := by
  unfold find
  by_cases h : p.1 = id <;> simp [h]

theorem mem_of_find {l : List (Nat × CacheEntry α)} {id : Nat} {e : CacheEntry α}
    (h : find l id = some e) : (id, e) ∈ l := by
  induction l with
  | nil => cases h
  | cons p l ih =>
      rw [find_cons] at h
      split at h
      next hp =>
        cases h
        subst hp
        exact List.mem_cons_self ..
      next => exact List.mem_cons_of_mem _ (ih h)

theorem find_of_mem {l : List (Nat × CacheEntry α)} (hl : (l.map Prod.fst).Nodup)
    {id : Nat} {e : CacheEntry α} (h : (id, e) ∈ l) : find l id = some e := by
  induction l with
  | nil => cases h
  | cons p l ih =>
      rw [List.map_cons, List.nodup_cons] at hl
      rw [find_cons]
      rcases List.mem_cons.mp h with heq | hmem
      · subst heq
        simp
      · have hne : p.1 ≠ id := by
          intro heq
          apply hl.1
          rw [heq]
          exact List.mem_map_of_mem (f := Prod.fst) hmem
        rw [if_neg hne]
        exact ih hl.2 hmem

theorem find_eq_none {l : List (Nat × CacheEntry α)} {id : Nat} :
    find l id = none ↔ id ∉ l.map Prod.fst := by
  induction l with
  | nil => simp
  | cons p l ih =>
      rw [find_cons]
      by_cases h : p.1 = id
      · simp [h]
      · have h' : ¬ id = p.1 := fun e => h e.symm
        simp only [h, if_false, ih, List.map_cons, List.mem_cons, h', false_or]

theorem map_fst_put_of_mem {l : List (Nat × CacheEntry α)} {id : Nat} (e : CacheEntry α)
    (h : l.any (fun p => p.1 == id) = true) : (put l id e).map Prod.fst = l.map Prod.fst := by
  rw [put, if_pos h, List.map_map]
  apply List.map_congr_left
  intro p _
  by_cases hp : p.1 = id <;> simp [hp]

theorem any_key {l : List (Nat × CacheEntry α)} {id : Nat} :
    l.any (fun p => p.1 == id) = true ↔ id ∈ l.map Prod.fst := by
  simp only [List.any_eq_true, beq_iff_eq, List.mem_map]

theorem put_nodup {l : List (Nat × CacheEntry α)} (hl : (l.map Prod.fst).Nodup)
    (id : Nat) (e : CacheEntry α) : ((put l id e).map Prod.fst).Nodup := by
  by_cases h : l.any (fun p => p.1 == id) = true
  · rw [map_fst_put_of_mem e h]
    exact hl
  · rw [put, if_neg h, List.map_append, List.nodup_append]
    refine ⟨hl, List.nodup_singleton _, ?_⟩
    intro a ha b hb
    have hb : b = id := by simpa using hb
    subst hb
    intro hab
    subst hab
    exact h (any_key.mpr ha)

theorem find_map_put (l : List (Nat × CacheEntry α)) (id id' : Nat) (e : CacheEntry α)
    (h : l.any (fun p => p.1 == id) = true) :
    find (l.map (fun p => if p.1 == id then (id, e) else p)) id' =
      if id = id' then some e else find l id' := by
  induction l with
  | nil => simp at h
  | cons p l ih =>
      rw [List.map_cons, find_cons, find_cons]
      by_cases hp : p.1 = id
      · by_cases hid : id = id'
        · simp [hp, hid]
        · have hp' : p.1 ≠ id' := fun h' => hid (hp.symm.trans h')
          simp only [hp, beq_self_eq_true, if_true, hid, if_false]
          by_cases hany : l.any (fun p => p.1 == id) = true
          · rw [ih hany, if_neg hid]
          · have hself : l.map (fun p => if p.1 == id then (id, e) else p) = l := by
              conv_rhs => rw [← List.map_id l]
              apply List.map_congr_left
              intro q hq
              have hq' : q.1 ≠ id := fun h' =>
                hany (any_key.mpr (h' ▸ List.mem_map_of_mem (f := Prod.fst) hq))
              simp [hq']
            rw [hself]
      · have hany : l.any (fun p => p.1 == id) = true := by simpa [hp] using h
        rw [ih hany]
        by_cases hid : id = id'
        · subst hid
          simp [hp]
        · simp [hp, hid]

theorem find_append (l l' : List (Nat × CacheEntry α)) (id : Nat) :
    find (l ++ l') id = (find l id).or (find l' id) := by
  induction l with
  | nil => simp
  | cons p l ih =>
      rw [List.cons_append, find_cons, find_cons, ih]
      by_cases h : p.1 = id <;> simp [h]

/-- A lookup after a put finds the new entry under its id and the old ones elsewhere. -/
theorem find_put (l : List (Nat × CacheEntry α)) (id id' : Nat) (e : CacheEntry α) :
    find (put l id e) id' = if id = id' then some e else find l id' := by
  by_cases h : l.any (fun p => p.1 == id) = true
  · rw [put, if_pos h]
    exact find_map_put l id id' e h
  · have hnone : find l id = none := find_eq_none.mpr fun hm => h (any_key.mpr hm)
    rw [put, if_neg h, find_append, find_cons, find_nil]
    by_cases hid : id = id'
    · subst hid
      simp [hnone]
    · simp [hid]

/-- Removing one entry hides that entry alone. -/
theorem find_filter_ne (l : List (Nat × CacheEntry α)) (v id : Nat) :
    find (l.filter (fun e => e.1 != v)) id = if v = id then none else find l id := by
  induction l with
  | nil => simp
  | cons p l ih =>
      by_cases hp : p.1 = v
      · have hdrop : (p :: l).filter (fun e => e.1 != v) = l.filter (fun e => e.1 != v) := by
          simp [hp]
        rw [hdrop, ih, find_cons]
        by_cases hv : v = id
        · simp [hv]
        · have hpi : ¬ p.1 = id := fun h => hv (hp.symm.trans h)
          simp [hv, hpi]
      · have hkeep : (p :: l).filter (fun e => e.1 != v) = p :: l.filter (fun e => e.1 != v) := by
          simp [hp]
        rw [hkeep, find_cons, ih, find_cons]
        by_cases hv : v = id
        · subst hv
          simp [hp]
        · simp [hv]

/-! ## Coherence with the store behind the cache -/

/-- Keys are unique, cached frames carry their page's id, and a clean entry repeats what
`store` holds for its page. -/
structure Coherent (store : Nat → Option (Frame α)) (l : List (Nat × CacheEntry α)) :
    Prop where
  nodup : (l.map Prod.fst).Nodup
  self : ∀ id e, find l id = some e → e.frame.id = id
  clean : ∀ id e, find l id = some e → e.dirty = false → store id = some e.frame

/-- What a page reads as: its resident frame, or else what the store holds. -/
def reads (store : Nat → Option (Frame α)) (l : List (Nat × CacheEntry α))
    (id : Nat) : Option (Frame α) :=
  match find l id with
  | some e => some e.frame
  | none => store id

variable {store : Nat → Option (Frame α)} {l : List (Nat × CacheEntry α)}

/-- The entry to evict is resident and clean. -/
theorem victim_clean {v : Nat × CacheEntry α} (h : victim l = some v) :
    v ∈ l ∧ v.2.dirty = false := by
  -- invariant of the fold: the best candidate so far is a clean entry of the list
  have hfold : ∀ (l' : List (Nat × CacheEntry α)) (best : Option (Nat × CacheEntry α)),
      (∀ b, best = some b → b ∈ l ∧ b.2.dirty = false) → (∀ e ∈ l', e ∈ l) →
      ∀ v, l'.foldl (fun best e =>
        if e.2.dirty then best
        else match best with
          | none => some e
          | some b => if e.2.tick < b.2.tick then some e else some b) best = some v →
      v ∈ l ∧ v.2.dirty = false := by
    intro l'
    induction l' with
    | nil =>
        intro best hb _ v hv
        exact hb v hv
    | cons e l' ih =>
        intro best hb hsub v hv
        rw [List.foldl_cons] at hv
        refine ih _ ?_ (fun e' he' => hsub e' (List.mem_cons_of_mem _ he')) v hv
        intro b hbe
        by_cases hd : e.2.dirty = true
        · rw [if_pos hd] at hbe
          exact hb b hbe
        · have hself : e ∈ l ∧ e.2.dirty = false :=
            ⟨hsub e (List.mem_cons_self ..), by simpa using hd⟩
          rw [if_neg hd] at hbe
          split at hbe
          · cases hbe
            exact hself
          · split at hbe
            · cases hbe
              exact hself
            · cases hbe
              exact hb b rfl
  exact hfold l none (fun b hb => by cases hb) (fun e he => he) v h

/-- Evicting neither changes what is read nor drops a dirty page. -/
theorem Coherent.evictLoop (budget : Nat) : ∀ (fuel : Nat) (l : List (Nat × CacheEntry α)),
    Coherent store l → Coherent store (evictLoop budget fuel l) ∧
      (∀ id, reads store (PageCache.evictLoop budget fuel l) id = reads store l id) ∧
      (∀ id e, e.dirty = true →
        (find (PageCache.evictLoop budget fuel l) id = some e ↔ find l id = some e)) := by
  intro fuel
  induction fuel with
  | zero => exact fun l hl => ⟨hl, fun _ => rfl, fun _ _ _ => Iff.rfl⟩
  | succ fuel ih =>
      intro l hl
      unfold PageCache.evictLoop
      split
      · cases hv : victim l with
        | none => exact ⟨hl, fun _ => rfl, fun _ _ _ => Iff.rfl⟩
        | some v =>
            -- the victim is clean, so the store has its frame and reading it again gives the same
            obtain ⟨hvm, hvd⟩ := victim_clean hv
            have hfv : find l v.1 = some v.2 := find_of_mem hl.nodup hvm
            have hl' : Coherent store (l.filter (fun e => e.1 != v.1)) := by
              refine ⟨hl.nodup.sublist (List.filter_sublist.map _), ?_, ?_⟩
              · intro id e he
                rw [find_filter_ne] at he
                split at he
                · cases he
                · exact hl.self id e he
              · intro id e he hd
                rw [find_filter_ne] at he
                split at he
                · cases he
                · exact hl.clean id e he hd
            obtain ⟨hc, hr, hd⟩ := ih _ hl'
            refine ⟨hc, fun id => ?_, fun id e hed => ?_⟩
            · rw [hr id]
              unfold reads
              rw [find_filter_ne]
              by_cases hid : v.1 = id
              · subst hid
                rw [if_pos rfl, hfv]
                exact hl.clean v.1 v.2 hfv hvd
              · rw [if_neg hid]
            · rw [hd id e hed, find_filter_ne]
              by_cases hid : v.1 = id
              · subst hid
                rw [if_pos rfl, hfv]
                constructor
                · intro h; cases h
                · intro h
                  cases h
                  rw [hvd] at hed
                  cases hed
              · rw [if_neg hid]
      · exact ⟨hl, fun _ => rfl, fun _ _ _ => Iff.rfl⟩

/-! ## What the operations do -/

/-- The page has a dirty entry. -/
def IsDirty (l : List (Nat × CacheEntry α)) (id : Nat) : Prop :=
  ∃ e, find l id = some e ∧ e.dirty = true

/-- A put is read back under its id. -/
theorem reads_put (id id' : Nat) (e : CacheEntry α) :
    reads store (put l id e) id' = if id = id' then some e.frame else reads store l id' := by
  unfold reads
  rw [find_put]
  by_cases h : id = id' <;> simp [h]

theorem isDirty_put (id id' : Nat) (e : CacheEntry α) :
    IsDirty (put l id e) id' ↔ if id = id' then e.dirty = true else IsDirty l id' := by
  unfold IsDirty
  rw [find_put]
  by_cases h : id = id' <;> simp [h]

/-- A put of a dirty page, or of the page as stored, keeps the cache coherent. -/
theorem Coherent.put (hl : Coherent store l) {id : Nat} {e : CacheEntry α}
    (hself : e.frame.id = id) (hclean : e.dirty = false → store id = some e.frame) :
    Coherent store (put l id e) := by
  refine ⟨put_nodup hl.nodup id e, ?_, ?_⟩
  · intro id' e' he'
    rw [find_put] at he'
    split at he'
    next h =>
      cases he'
      exact hself.trans h
    next => exact hl.self id' e' he'
  · intro id' e' he' hd
    rw [find_put] at he'
    split at he'
    next h =>
      cases he'
      exact h ▸ hclean hd
    next => exact hl.clean id' e' he' hd

/-- Evicting to the budget keeps the cache coherent, every read and every dirty page. -/
theorem Coherent.evict {c : PageCache α} (hc : Coherent store c.entries) :
    Coherent store c.evictToBudget.entries ∧
      (∀ id, reads store c.evictToBudget.entries id = reads store c.entries id) ∧
      (∀ id, IsDirty c.evictToBudget.entries id ↔ IsDirty c.entries id) := by
  obtain ⟨h₁, h₂, h₃⟩ := Coherent.evictLoop c.budgetBytes c.entries.length c.entries hc
  refine ⟨h₁, h₂, fun id => ?_⟩
  constructor
  · rintro ⟨e, he, hd⟩
    exact ⟨e, (h₃ id e hd).mp he, hd⟩
  · rintro ⟨e, he, hd⟩
    exact ⟨e, (h₃ id e hd).mpr he, hd⟩

/-- A hit refreshes a tick and nothing else. -/
theorem get_spec {c : PageCache α} (hc : Coherent store c.entries) (id : Nat) :
    (c.get id).1 = (c.entry id).map CacheEntry.frame ∧
      Coherent store (c.get id).2.entries ∧
      (∀ id', reads store (c.get id).2.entries id' = reads store c.entries id') ∧
      (∀ id', IsDirty (c.get id).2.entries id' ↔ IsDirty c.entries id') := by
  unfold get
  rw [entry_eq_find]
  cases he : find c.entries id with
  | none => exact ⟨rfl, hc, fun _ => rfl, fun _ => Iff.rfl⟩
  | some e =>
      refine ⟨rfl, hc.put (hc.self id e he) (hc.clean id e he), fun id' => ?_, fun id' => ?_⟩
      · rw [reads_put]
        by_cases h : id = id'
        · subst h
          simp [reads, he]
        · simp [h]
      · rw [isDirty_put]
        by_cases h : id = id'
        · subst h
          simp [IsDirty, he]
        · simp [h]

/-- Staging a frame makes the page read as that frame and pins it. -/
theorem insert_dirty_spec {c : PageCache α} (hc : Coherent store c.entries) {f : Frame α} :
    Coherent store (c.insert f.id f true).entries ∧
      (∀ id, reads store (c.insert f.id f true).entries id =
        if f.id = id then some f else reads store c.entries id) ∧
      (∀ id, IsDirty (c.insert f.id f true).entries id ↔ f.id = id ∨ IsDirty c.entries id) := by
  have hdirty : (c.inserted f.id f true).dirty = true := by
    unfold inserted
    cases c.entry f.id <;> simp
  have hput : Coherent store (put c.entries f.id (c.inserted f.id f true)) :=
    hc.put rfl (by rw [hdirty]; intro h; cases h)
  obtain ⟨h₁, h₂, h₃⟩ := Coherent.evict
    (c := { c with
      entries := put c.entries f.id (c.inserted f.id f true), tick := c.tick + 1 }) hput
  refine ⟨h₁, fun id => ?_, fun id => ?_⟩
  · exact (h₂ id).trans (reads_put ..)
  · refine (h₃ id).trans ((isDirty_put ..).trans ?_)
    rw [hdirty]
    by_cases h : f.id = id <;> simp [h]

/-- Caching a frame just read from the store changes nothing that is read. -/
theorem insert_clean_spec {c : PageCache α} (hc : Coherent store c.entries) {f : Frame α}
    (hmiss : c.entry f.id = none) (hstore : store f.id = some f) :
    Coherent store (c.insert f.id f false).entries ∧
      (∀ id, reads store (c.insert f.id f false).entries id = reads store c.entries id) ∧
      (∀ id, IsDirty (c.insert f.id f false).entries id ↔ IsDirty c.entries id) := by
  have hclean : (c.inserted f.id f false).dirty = false := by
    unfold inserted
    rw [hmiss]
  have hput : Coherent store (put c.entries f.id (c.inserted f.id f false)) :=
    hc.put rfl (fun _ => hstore)
  obtain ⟨h₁, h₂, h₃⟩ := Coherent.evict
    (c := { c with
      entries := put c.entries f.id (c.inserted f.id f false), tick := c.tick + 1 }) hput
  rw [entry_eq_find] at hmiss
  refine ⟨h₁, fun id => ?_, fun id => ?_⟩
  · refine (h₂ id).trans ((reads_put ..).trans ?_)
    by_cases h : f.id = id
    · subst h
      simp [reads, hmiss, hstore, inserted]
    · simp [h]
  · refine (h₃ id).trans ((isDirty_put ..).trans ?_)
    rw [hclean]
    by_cases h : f.id = id
    · subst h
      simp [IsDirty, hmiss]
    · simp [h]

/-! ### No operation makes another page resident -/

theorem evictLoop_subset (budget : Nat) : ∀ (fuel : Nat) (l : List (Nat × CacheEntry α)),
    evictLoop budget fuel l ⊆ l := by
  intro fuel
  induction fuel with
  | zero => exact fun l => List.Subset.refl l
  | succ fuel ih =>
      intro l
      unfold evictLoop
      split
      · split
        · exact List.Subset.trans (ih _) (List.filter_subset_self _)
        · exact List.Subset.refl l
      · exact List.Subset.refl l

theorem find_ne_none_of_subset {l' : List (Nat × CacheEntry α)} (h : l' ⊆ l) {id : Nat}
    (hf : find l' id ≠ none) : find l id ≠ none := by
  rw [ne_eq, find_eq_none, not_not] at hf ⊢
  obtain ⟨p, hp, rfl⟩ := List.mem_map.mp hf
  exact List.mem_map_of_mem (h hp)

/-- An insert makes at most its own page resident. -/
theorem resident_insert (c : PageCache α) (id : Nat) (f : Frame α) (d : Bool) {id' : Nat}
    (h : find (c.insert id f d).entries id' ≠ none) : id' = id ∨ find c.entries id' ≠ none := by
  have h' : find (put c.entries id (c.inserted id f d)) id' ≠ none :=
    find_ne_none_of_subset (evictLoop_subset _ _ _) h
  rw [find_put] at h'
  by_cases hid : id = id'
  · exact .inl hid.symm
  · rw [if_neg hid] at h'
    exact .inr h'

/-- A get makes no page resident. -/
theorem resident_get (c : PageCache α) (id : Nat) {id' : Nat}
    (h : find (c.get id).2.entries id' ≠ none) : find c.entries id' ≠ none := by
  unfold get at h
  rw [entry_eq_find] at h
  cases he : find c.entries id with
  | none => rwa [he] at h
  | some e =>
      rw [he] at h
      replace h : find (put c.entries id { e with tick := c.tick + 1 }) id' ≠ none := h
      rw [find_put] at h
      by_cases hid : id = id'
      · subst hid
        rw [he]
        exact Option.some_ne_none _
      · rwa [if_neg hid] at h

/-! ## Flushing -/

/-- The pages to flush are the dirty entries, each with its frame. -/
theorem mem_dirtyPages {c : PageCache α} (hc : (c.entries.map Prod.fst).Nodup) (id : Nat)
    (f : Frame α) : (id, f) ∈ c.dirtyPages ↔
      ∃ e, find c.entries id = some e ∧ e.dirty = true ∧ e.frame = f := by
  unfold dirtyPages
  simp only [List.mem_map, List.mem_filter]
  constructor
  · rintro ⟨⟨id', e⟩, ⟨hmem, hd⟩, heq⟩
    cases heq
    exact ⟨e, find_of_mem hc hmem, hd, rfl⟩
  · rintro ⟨e, he, hd, rfl⟩
    exact ⟨(id, e), ⟨mem_of_find he, hd⟩, rfl⟩

/-- No page is flushed twice. -/
theorem dirtyPages_nodup {c : PageCache α} (hc : (c.entries.map Prod.fst).Nodup) :
    (c.dirtyPages.map Prod.fst).Nodup := by
  have : c.dirtyPages.map Prod.fst = (c.entries.filter (fun e => e.2.dirty)).map Prod.fst := by
    rw [dirtyPages, List.map_map]
    rfl
  rw [this]
  exact hc.sublist (List.filter_sublist.map _)

/-- Clearing the dirty bits keeps every entry and its frame. -/
theorem find_clearDirty (c : PageCache α) (id : Nat) :
    find c.clearDirty.entries id =
      (find c.entries id).map (fun e => { e with dirty := false }) := by
  unfold clearDirty
  induction c.entries with
  | nil => rfl
  | cons p l ih =>
      simp only [List.map_cons, find_cons]
      by_cases h : p.1 = id
      · simp [h]
      · simpa [h] using ih

theorem not_isDirty_clearDirty (c : PageCache α) (id : Nat) :
    ¬ IsDirty c.clearDirty.entries id := by
  rintro ⟨e, he, hd⟩
  rw [find_clearDirty] at he
  obtain ⟨e', _, rfl⟩ := Option.map_eq_some_iff.mp he
  cases hd

/-- Once the store holds every dirty frame, the whole cache is clean and reads are unchanged. -/
theorem clearDirty_spec {c : PageCache α} (hc : Coherent store c.entries)
    {store' : Nat → Option (Frame α)}
    (hdirty : ∀ id e, find c.entries id = some e → e.dirty = true → store' id = some e.frame)
    (hother : ∀ id, ¬ IsDirty c.entries id → find c.entries id ≠ none → store' id = store id) :
    Coherent store' c.clearDirty.entries := by
  refine ⟨?_, ?_, ?_⟩
  · have : c.clearDirty.entries.map Prod.fst = c.entries.map Prod.fst := by
      rw [clearDirty, List.map_map]
      rfl
    rw [this]
    exact hc.nodup
  · intro id e he
    rw [find_clearDirty] at he
    obtain ⟨e', he', rfl⟩ := Option.map_eq_some_iff.mp he
    exact hc.self id e' he'
  · intro id e he _
    rw [find_clearDirty] at he
    obtain ⟨e', he', rfl⟩ := Option.map_eq_some_iff.mp he
    cases hd : e'.dirty with
    | true => exact hdirty id e' he' hd
    | false =>
        have hnd : ¬ IsDirty c.entries id := by
          rintro ⟨e'', he'', hd''⟩
          rw [he'] at he''
          cases he''
          rw [hd] at hd''
          cases hd''
        rw [hother id hnd (by rw [he']; exact Option.some_ne_none _)]
        exact hc.clean id e' he' hd

end PageCache

end Edb
