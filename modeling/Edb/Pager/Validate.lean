import Edb.Pager.Run

/-!
# Checking the committed file

`Pager.validate` reads the active meta slot back and walks the trunk chain, with one set of the
ids seen so far for the trunks and the ids they store. It accepts every file that stores a
version (`validate_of_stored`).
-/

namespace Edb

variable {α : Type}

/-- What validation reports. -/
structure PagerStats where
  pageCount : Nat
  freeIds : Nat
  trunkCount : Nat
  activeSlot : Nat
  txnId : Nat
  deriving DecidableEq, Repr

/-- The ids a trunk stores must be pages of the file, none of them seen before. -/
def checkEntries (pageCount : Nat) : List Nat → List Nat → Except PagerError (List Nat)
  | [], seen => .ok seen
  | entry :: entries, seen =>
      if entry < firstDataPage ∨ entry ≥ pageCount then
        .error (.corruption (.freelistOutOfRange entry))
      else if entry ∈ seen then .error (.corruption (.freelistDuplicate entry))
      else checkEntries pageCount entries (entry :: seen)

/-- Walk the trunk chain from `head`, counting the stored ids and the trunks. Every trunk is a
new page of the file, so `pageCount` links are enough for any chain the walk accepts. -/
def checkChain (i : Image α) (pageCount : Nat) :
    Nat → Option Nat → List Nat → Nat → Nat → Except PagerError (Nat × Nat)
  | _, none, _, storedIds, trunks => .ok (storedIds, trunks)
  | 0, some id, _, _, _ => .error (.corruption (.freelistCycle id))
  | fuel + 1, some id, seen, storedIds, trunks =>
      if id < firstDataPage ∨ id ≥ pageCount then
        .error (.corruption (.freelistOutOfRange id))
      else if id ∈ seen then .error (.corruption (.freelistCycle id))
      else
        match i.readAt id with
        | .error e => .error e
        | .ok f =>
            match f.body with
            | .freelist next ids =>
                if ids.length > freelistCapacity then
                  .error (.corruption (.freelistBadCount id))
                else
                  match checkEntries pageCount ids (id :: seen) with
                  | .error e => .error e
                  | .ok seen =>
                      checkChain i pageCount fuel (u64ToOpt next) seen (storedIds + ids.length)
                        (trunks + 1)
            | _ => .error (.corruption (.freelistBadType id))

/-- Walk the committed structures and check their consistency. -/
def Pager.validate (p : Pager α) : Except PagerError PagerStats :=
  match readMeta p.backend.current p.activeSlot with
  | .error e => .error e
  | .ok onDisk =>
      if onDisk.txnId ≠ p.metadata.txnId then .error (.corruption (.badMeta p.activeSlot))
      else
        match checkChain p.backend.current p.metadata.pageCount p.metadata.pageCount
            p.metadata.freelistHead [] 0 0 with
        | .error e => .error e
        | .ok (storedIds, trunks) =>
            if storedIds ≠ p.metadata.freelistLen then
              .error (.corruption (.freelistLenMismatch storedIds p.metadata.freelistLen))
            else
              .ok {
                pageCount := p.metadata.pageCount
                freeIds := storedIds
                trunkCount := trunks
                activeSlot := p.activeSlot
                txnId := p.metadata.txnId }

/-! ## What passes -/

/-- Entries in range that were not seen before pass the check and are seen now. -/
theorem checkEntries_of_nodup (pageCount : Nat) {ids seen : List Nat}
    (hrange : ∀ id ∈ ids, firstDataPage ≤ id ∧ id < pageCount) (hnodup : (ids ++ seen).Nodup) :
    ∃ seen', checkEntries pageCount ids seen = .ok seen' ∧ seen'.Perm (ids ++ seen) := by
  induction ids generalizing seen with
  | nil => exact ⟨seen, rfl, List.Perm.refl _⟩
  | cons id ids ih =>
      have hid := hrange id (List.mem_cons_self ..)
      rw [List.cons_append] at hnodup
      have hfresh : id ∉ seen := fun h =>
        (List.nodup_cons.mp hnodup).1 (List.mem_append_right _ h)
      have hmid : (ids ++ id :: seen).Perm (id :: (ids ++ seen)) := List.perm_middle
      obtain ⟨seen', hrun, hperm⟩ := ih
        (fun id' hid' => hrange id' (List.mem_cons_of_mem _ hid')) (hmid.nodup_iff.mpr hnodup)
      refine ⟨seen', ?_, hperm.trans hmid⟩
      rw [checkEntries, if_neg (by omega), if_neg hfresh]
      exact hrun

/-- The walk accepts a chain whose trunks and stored ids are distinct pages of the file. -/
theorem checkChain_of_chain (storedIds trunks : Nat) {i : Image α} {pageCount : Nat}
    {ts : List Trunk} {head fuel : Nat} {seen : List Nat} (hchain : TrunkChain i.frameAt head ts)
    (hrange : ∀ id ∈ trunkPages ts, firstDataPage ≤ id ∧ id < pageCount)
    (hcap : ∀ t ∈ ts, t.ids.length ≤ freelistCapacity)
    (hnodup : (trunkPages ts ++ seen).Nodup) (hfuel : ts.length ≤ fuel) :
    checkChain i pageCount fuel (u64ToOpt head) seen storedIds trunks =
      .ok (storedIds + (ts.flatMap Trunk.ids).length, trunks + ts.length) := by
  induction ts generalizing head fuel seen storedIds trunks with
  | nil =>
      obtain rfl : head = 0 := hchain
      cases fuel <;> simp [checkChain, u64ToOpt]
  | cons t ts ih =>
      obtain ⟨rfl, next, hframe, hnext⟩ := hchain
      obtain ⟨fuel, rfl⟩ : ∃ f, fuel = f + 1 := ⟨fuel - 1, by simp at hfuel; omega⟩
      have hpages : trunkPages (t :: ts) = t.id :: (t.ids ++ trunkPages ts) := rfl
      rw [hpages, List.cons_append, List.append_assoc] at hnodup
      obtain ⟨hfresh, hrest⟩ := List.nodup_cons.mp hnodup
      obtain ⟨hlo, hhi⟩ := hrange t.id (by rw [hpages]; exact List.mem_cons_self ..)
      have hfirst : firstDataPage = 2 := rfl
      have hsome : u64ToOpt t.id = some t.id := if_neg (by omega)
      have hread : i.readAt t.id = .ok { id := t.id, body := .freelist next t.ids } :=
        Image.readAt_eq_ok.mpr hframe
      have hunseen : t.id ∉ seen := fun h =>
        hfresh (List.mem_append_right _ (List.mem_append_right _ h))
      have hcount : ¬ t.ids.length > freelistCapacity :=
        Nat.not_lt.mpr (hcap t (List.mem_cons_self ..))
      -- the entries of this trunk, then the rest of the chain
      have hmove : (t.ids ++ t.id :: seen).Perm (t.id :: (t.ids ++ seen)) := List.perm_middle
      have hswap : (trunkPages ts ++ (t.ids ++ t.id :: seen)).Perm
          (t.id :: (t.ids ++ (trunkPages ts ++ seen))) := by
        refine ((List.perm_append_comm_assoc ..).trans ?_)
        rw [← List.append_assoc, ← List.append_assoc]
        exact List.perm_middle
      obtain ⟨seen', hentries, hperm⟩ := checkEntries_of_nodup pageCount
        (fun id (hid : id ∈ t.ids) => hrange id (by
          rw [hpages]
          exact List.mem_cons_of_mem _ (List.mem_append_left _ hid)))
        (List.Nodup.sublist (List.sublist_append_right (trunkPages ts) _)
          (hswap.nodup_iff.mpr hnodup))
      have hnodup' : (trunkPages ts ++ seen').Nodup :=
        ((hperm.append_left _).trans hswap).nodup_iff.mpr hnodup
      rw [hsome, checkChain, if_neg (by omega), if_neg hunseen, hread]
      simp only [hcount, if_false, hentries]
      rw [ih _ _ hnext (fun id hid => hrange id (by
          rw [hpages]
          exact List.mem_cons_of_mem _ (List.mem_append_right _ hid)))
        (fun t' ht' => hcap t' (List.mem_cons_of_mem _ ht')) hnodup' (by simpa using hfuel)]
      simp only [List.flatMap_cons, List.length_append, List.length_cons]
      congr 2
      · omega
      · omega

namespace Pager

/-- Validation accepts a pager whose file stores the version of its meta. -/
theorem validate_of_stored {p : Pager α} {v : Version α}
    (h : Stored p.backend.current p.activeSlot v) (hm : p.metadata = v.metadata)
    (hlen : v.metadata.freelistLen = v.free.length) :
    p.validate = .ok {
      pageCount := v.metadata.pageCount
      freeIds := v.free.length
      trunkCount := v.trunks.length
      activeSlot := p.activeSlot
      txnId := v.metadata.txnId } := by
  have hmeta := readMeta_metaFrame h.sound.valid h.here
  obtain ⟨head, hhead, hchain⟩ := h.intact.chain
  have hperm : (trunkPages v.trunks).Perm (v.free ++ v.trunkIds) := trunkPages_perm v.trunks
  have hfuel : v.trunks.length ≤ v.metadata.pageCount := by
    have hsub : v.trunkIds ⊆ List.range v.metadata.pageCount := fun id hid =>
      List.mem_range.mpr (h.sound.range id (List.mem_append_right _ hid)).2
    have := ((List.nodup_append.mp h.sound.nodup).2.1.subperm hsub).length_le
    rwa [Version.trunkIds, List.length_map, List.length_range] at this
  have hwalk := checkChain_of_chain 0 0 hchain
    (fun id hid => h.sound.range id (hperm.subset hid)) h.sound.trunksOk.capacity
    (by rw [List.append_nil]; exact hperm.nodup_iff.mpr h.sound.nodup) hfuel
  unfold validate
  rw [hmeta, hm, hhead]
  simp only [ne_eq, not_true_eq_false, if_false, hwalk, hlen, Nat.zero_add]
  exact if_neg (fun hne => hne rfl)

end Pager

end Edb
