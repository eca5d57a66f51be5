import Edb.Catalog.Layout
import Edb.Catalog.WellFormed

/-!
# Consistent catalogs

A catalog is `Consistent` when every tree but the catalog tree stands in the slot of exactly one
entry, and the entries of each table go together: a table that is not defined has none, and one
that is defined has an index root for each index of its definition and for no other.

A job writes to the entries of one table; `Edited` says which entries those are. What the jobs
have in common is here: loading definitions and roots, storing roots, and adding indexes.
-/

namespace Edb.Catalog.TreeJob

open Edb.Types Edb.Lib Edb.Txn

/-! ## Entries -/

/-- The value of an entry of the catalog tree. -/
def entryIn (es : List BTree.Entry) (k : StoreKey) : Option Bytes := OrdMap.find k.bytes es

/-- The entries that lead to trees. -/
def isTree : StoreKey → Bool
  | .root _ | .iroot .. => true
  | .tbl _ | .seq _ => false

/-- The slots the entries fill. -/
def slotsOf (es : List BTree.Entry) : Slots := fun k =>
  if isTree k then (entryIn es k).bind fun value => (decodeRoot value).toOption else none

section Entries

variable {es es' : List BTree.Entry} {k k' : StoreKey} {value : Bytes} {r : Nat}

theorem entryIn_insert (es : List BTree.Entry) (k k' : StoreKey) (value : Bytes) :
    entryIn (OrdMap.insert k.bytes value es) k' = if k = k' then some value else entryIn es k' := by
  simp only [entryIn, OrdMap.find_insert, StoreKey.bytes_inj]

theorem entryIn_erase (es : List BTree.Entry) (k k' : StoreKey) :
    entryIn (OrdMap.erase k.bytes es) k' = if k = k' then none else entryIn es k' := by
  simp only [entryIn, OrdMap.find_erase, StoreKey.bytes_inj]

theorem slotsOf_insert_root (hk : isTree k = true) (hvalue : encodeRoot r = .ok value) :
    slotsOf (OrdMap.insert k.bytes value es) = Function.update (slotsOf es) k (some r) := by
  funext k'
  by_cases h : k' = k
  · subst h
    simp [slotsOf, entryIn_insert, hk, decodeRoot_encodeRoot hvalue, Except.toOption]
  · simp [slotsOf, entryIn_insert, Function.update_of_ne h, Ne.symm h]

theorem slotsOf_insert_other (hk : isTree k = false) :
    slotsOf (OrdMap.insert k.bytes value es) = slotsOf es := by
  funext k'
  by_cases h : k' = k
  · subst h
    simp [slotsOf, hk]
  · simp [slotsOf, entryIn_insert, Ne.symm h]

theorem slotsOf_erase :
    slotsOf (OrdMap.erase k.bytes es) = Function.update (slotsOf es) k none := by
  funext k'
  by_cases h : k' = k
  · subst h
    simp [slotsOf, entryIn_erase]
  · simp [slotsOf, entryIn_erase, Function.update_of_ne h, Ne.symm h]

theorem slotsOf_eq_none (h : entryIn es k = none) : slotsOf es k = none := by
  simp [slotsOf, h]

theorem slotsOf_eq_some (hk : isTree k = true) (hentry : entryIn es k = some value)
    (hroot : decodeRoot value = .ok r) : slotsOf es k = some r := by
  simp [slotsOf, hk, hentry, hroot, Except.toOption]

end Entries

/-- The keys are keys of the catalog, and the entries of none but these have changed. -/
structure Edited (P : StoreKey → Prop) (es es' : List BTree.Entry) : Prop where
  known : (∀ e ∈ es, ∃ k : StoreKey, e.1 = k.bytes) → ∀ e ∈ es', ∃ k : StoreKey, e.1 = k.bytes
  same : ∀ k, ¬ P k → entryIn es' k = entryIn es k

namespace Edited

variable {P P' : StoreKey → Prop} {es es' es'' : List BTree.Entry}

theorem refl (P : StoreKey → Prop) (es : List BTree.Entry) : Edited P es es :=
  ⟨id, fun _ _ => rfl⟩

theorem trans (h : Edited P es es') (h' : Edited P es' es'') : Edited P es es'' :=
  ⟨fun hk => h'.known (h.known hk), fun k hk => (h'.same k hk).trans (h.same k hk)⟩

theorem mono (h : Edited P es es') (hP : ∀ k, P k → P' k) : Edited P' es es' :=
  ⟨h.known, fun k hk => h.same k fun hp => hk (hP k hp)⟩

theorem insert {k : StoreKey} {value : Bytes} (hk : P k) :
    Edited P es (OrdMap.insert k.bytes value es) := by
  refine ⟨fun hknown e he => ?_, fun k' hk' => ?_⟩
  · rcases OrdMap.mem_insert he with rfl | he
    · exact ⟨k, rfl⟩
    · exact hknown e he
  · rw [entryIn_insert, if_neg]
    rintro rfl
    exact hk' hk

theorem erase {k : StoreKey} (hk : P k) : Edited P es (OrdMap.erase k.bytes es) := by
  refine ⟨fun hknown e he => hknown e (List.mem_of_mem_filter he), fun k' hk' => ?_⟩
  rw [entryIn_erase, if_neg]
  rintro rfl
  exact hk' hk

end Edited

/-! ## Consistency -/

/-- What is stored of a definition can be read back, and is well formed. -/
structure Stored (table : String) (def_ : TableDef) : Prop where
  name : def_.name = table
  wellFormed : def_.WellFormed
  checks : ∃ d, CheckExpr.validateAll d 0 def_.checks = .ok ()

/-- The entries of a table go together. -/
structure Described (es : List BTree.Entry) (table : String) : Prop where
  absent : entryIn es (.tbl table) = none → ∀ k : StoreKey, k.table = table → entryIn es k = none
  present : ∀ bytes, entryIn es (.tbl table) = some bytes → ∃ def_, decodeTable bytes = .ok def_ ∧
    Stored table def_ ∧ ∀ index, entryIn es (.iroot table index) ≠ none ↔
      index ∈ def_.indexes.map IndexDef.name

structure Consistent (es : List BTree.Entry) (f : Forest) : Prop where
  layout : Layout es (slotsOf es) f
  known : ∀ e ∈ es, ∃ k : StoreKey, e.1 = k.bytes
  described : ∀ table, Described es table

/-- A table stays described while its entries in the catalog stay. -/
theorem Described.congr {es es' : List BTree.Entry} {table : String} (h : Described es table)
    (hsame : ∀ k : StoreKey, k.table = table → entryIn es' k = entryIn es k) :
    Described es' table := by
  have htbl := hsame (.tbl table) rfl
  refine ⟨fun habsent k hk => ?_, fun bytes hbytes => ?_⟩
  · rw [hsame k hk]
    exact h.absent (htbl ▸ habsent) k hk
  · obtain ⟨def_, hdecode, hstored, hindexes⟩ := h.present bytes (htbl ▸ hbytes)
    refine ⟨def_, hdecode, hstored, fun index => ?_⟩
    rw [hsame (.iroot table index) rfl]
    exact hindexes index

/-- A job that edits the entries of one table and leaves them described. -/
theorem Consistent.edited {es es' : List BTree.Entry} {f f' : Forest} {table : String}
    (h : Consistent es f) (hedited : Edited (fun k => k.table = table) es es')
    (hlayout : Layout es' (slotsOf es') f') (hdescribed : Described es' table) :
    Consistent es' f' := by
  refine ⟨hlayout, hedited.known h.known, fun other => ?_⟩
  by_cases hother : other = table
  · exact hother ▸ hdescribed
  · exact (h.described other).congr fun k hk => hedited.same k (hk ▸ hother)

/-- What a definition that is stored makes of the entries of its table. -/
theorem described_of_stored {es : List BTree.Entry} {def_ : TableDef} {bytes : Bytes}
    {table : String} (hstored : Stored table def_) (hbytes : encodeTable def_ = .ok bytes)
    (hentry : entryIn es (.tbl table) = some bytes)
    (hindexes : ∀ index, entryIn es (.iroot table index) ≠ none ↔
      index ∈ def_.indexes.map IndexDef.name) : Described es table := by
  obtain ⟨d, hchecks⟩ := hstored.checks
  refine ⟨fun habsent => ?_, fun bytes' hbytes' => ?_⟩
  · rw [hentry] at habsent
    cases habsent
  · rw [hentry] at hbytes'
    cases hbytes'
    exact ⟨def_, decodeTable_of_checks hchecks hbytes, hstored, hindexes⟩

/-- What a job leaves that succeeds. -/
def Leaves (origin : Origin) (l : Ledger) (origin' : Origin) (l' : Ledger) : Prop :=
  ∃ es, Consistent es l'.toForest ∧ Advances origin l origin' l' ∧ l.root ∈ l'.retired

/-! ## Reading the catalog -/

section Loads

variable {es : List BTree.Entry} {slots : Slots} {origin : Origin} {l : Ledger} {table : String}

theorem ensures_loadTable {Q : TableDef → Origin → Ledger → Prop}
    (h : Layout es slots l.toForest)
    (hQ : ∀ bytes def_, entryIn es (.tbl table) = some bytes → decodeTable bytes = .ok def_ →
      Q def_ origin l) : (loadTable table).Ensures Q origin l := by
  refine .bind (ensures_rej fun key hkey => ?_)
  cases (tblKey_eq table).symm.trans hkey
  refine .bind (ensures_lookupEntry h (.bind (ensures_rej fun bytes hbytes => ?_)))
  exact ensures_rej fun def_ hdef => hQ bytes def_ (okOr_eq_ok.1 hbytes) hdef

/-- A table that is loaded is defined, and its entries go with the definition. -/
theorem Consistent.ensures_loadTable {Q : TableDef → Origin → Ledger → Prop}
    (h : Consistent es l.toForest)
    (hQ : ∀ def_, entryIn es (.tbl table) ≠ none → Stored table def_ →
      (∀ index, entryIn es (.iroot table index) ≠ none ↔
        index ∈ def_.indexes.map IndexDef.name) → Q def_ origin l) :
    (loadTable table).Ensures Q origin l := by
  refine TreeJob.ensures_loadTable h.layout fun bytes def_ hbytes hdecode => ?_
  obtain ⟨def', hdecode', hstored, hindexes⟩ := (h.described table).present bytes hbytes
  cases hdecode.symm.trans hdecode'
  exact hQ def_ (by simp [hbytes]) hstored hindexes

theorem ensures_loadRootAt {Q : Nat → Origin → Ledger → Prop} {k : StoreKey}
    (hk : isTree k = true) (h : Layout es slots l.toForest)
    (hQ : ∀ r, slotsOf es k = some r → Q r origin l) :
    (loadRootAt k.bytes).Ensures Q origin l := by
  refine .bind (ensures_lookupEntry h (.bind (ensures_rej fun bytes hbytes => ?_)))
  exact ensures_rej fun r hr => hQ r (slotsOf_eq_some hk (okOr_eq_ok.1 hbytes) hr)

theorem ensures_loadRoot {Q : Nat → Origin → Ledger → Prop} (h : Layout es slots l.toForest)
    (hQ : ∀ r, slotsOf es (.root table) = some r → Q r origin l) :
    (loadRoot table).Ensures Q origin l := by
  refine .bind (ensures_rej fun key hkey => ?_)
  cases (rootKey_eq table).symm.trans hkey
  exact ensures_loadRootAt rfl h hQ

theorem ensures_loadIroot {Q : Nat → Origin → Ledger → Prop} {index : String}
    (h : Layout es slots l.toForest)
    (hQ : ∀ r, slotsOf es (.iroot table index) = some r → Q r origin l) :
    (loadIroot table index).Ensures Q origin l := by
  refine .bind (ensures_rej fun key hkey => ?_)
  cases (irootKey_eq table index).symm.trans hkey
  exact ensures_loadRootAt rfl h hQ

/-- A job that only reads, for each element of a list. -/
theorem ensures_mapM {α β : Type} {f : α → StoreJob β} {R : α → β → Prop} {as : List α}
    (hf : ∀ a ∈ as, (f a).Ensures (fun b origin' l' => R a b ∧ origin' = origin ∧ l' = l) origin l)
    {Q : List β → Origin → Ledger → Prop} (hQ : ∀ bs, List.Forall₂ R as bs → Q bs origin l) :
    (as.mapM f).Ensures Q origin l := by
  induction as generalizing Q with
  | nil => exact .ret (hQ [] .nil)
  | cons a as ih =>
    obtain ⟨ha, has⟩ := List.forall_mem_cons.1 hf
    rw [List.mapM_cons]
    refine .bind (ha.mono ?_)
    rintro b _ _ ⟨hb, rfl, rfl⟩
    exact .bind (ih has fun bs hbs => .ret (hQ (b :: bs) (.cons hb hbs)))

/-- A job that only reads and decides, for each element of a list. -/
theorem ensures_forM {α : Type} {f : α → StoreJob Unit} {as : List α}
    (hf : ∀ a ∈ as, (f a).Ensures (fun _ origin' l' => origin' = origin ∧ l' = l) origin l)
    {Q : Unit → Origin → Ledger → Prop} (hQ : Q () origin l) :
    (as.forM f).Ensures Q origin l := by
  induction as with
  | nil => exact .ret hQ
  | cons a as ih =>
    obtain ⟨ha, has⟩ := List.forall_mem_cons.1 hf
    refine .bind (ha.mono ?_)
    rintro _ _ _ ⟨rfl, rfl⟩
    exact ih has

theorem ensures_loadIndexRoots {Q : List Nat → Origin → Ledger → Prop} {def_ : TableDef}
    (h : Layout es slots l.toForest)
    (hQ : ∀ roots, List.Forall₂ (fun idx r => slotsOf es (.iroot def_.name idx.name) = some r)
      def_.indexes roots → Q roots origin l) : (loadIndexRoots def_).Ensures Q origin l :=
  ensures_mapM (fun _ _ => ensures_loadIroot h fun _ hr => ⟨hr, rfl, rfl⟩) hQ

theorem ensures_computeBackfill {Q : List Entry → Origin → Ledger → Prop} {def_ : TableDef}
    {idx : IndexDef} {k : StoreKey} {r : Nat} (h : Layout es slots l.toForest)
    (hk : slots k = some r) (hQ : ∀ entries, Q entries origin l) :
    (computeBackfill def_ r idx).Ensures Q origin l := by
  obtain ⟨t, ht⟩ := h.exists_tree hk
  exact .bind (.scan ht (ensures_ofJob fun entries _ => hQ entries))

/-- Checking the foreign keys of a definition changes nothing. -/
theorem ensures_validateFks {Q : Unit → Origin → Ledger → Prop} {def_ : TableDef}
    (h : Layout es slots l.toForest) (hQ : Q () origin l) :
    (validateFks def_).Ensures Q origin l := by
  refine ensures_forM (fun fk _ => ?_) hQ
  refine .bind (ensures_rej fun _ _ => .bind (Job.Ensures.mono (Q := fun _ origin' l' =>
    origin' = origin ∧ l' = l) ?_ ?_))
  · unfold fkParent
    split
    · exact .ret ⟨rfl, rfl⟩
    · refine .bind (.bind (ensures_rej fun _ _ => .bind (ensures_lookupEntry h ?_)))
      exact ensures_rej fun _ _ => ensures_rej fun _ _ => ⟨rfl, rfl⟩
  · rintro parent _ _ ⟨rfl, rfl⟩
    exact .bind (ensures_rej fun _ _ => ensures_rej fun _ _ => ⟨rfl, rfl⟩)

end Loads

/-! ## Storing roots and adding indexes -/

section Indexes

variable {es : List BTree.Entry} {slots : Slots} {origin : Origin} {l : Ledger}
variable {table index : String} {r : Nat}

/-- Storing the root of a table edits that entry of the catalog alone. -/
theorem ensures_storeRoot {Q : Unit → Origin → Ledger → Prop} (h : Layout es slots l.toForest)
    (hQ : ∀ value origin' l',
      Layout (OrdMap.insert (StoreKey.root table).bytes value es) slots l'.toForest →
      Advances origin l origin' l' → l.root ∈ l'.retired → Keeps slots l l' →
      slotsOf (OrdMap.insert (StoreKey.root table).bytes value es) =
        Function.update (slotsOf es) (.root table) (some r) → Q () origin' l') :
    (storeRoot table r).Ensures Q origin l := by
  refine .bind (ensures_rej fun key hkey => .bind (ensures_rej fun value hvalue => ?_))
  cases (rootKey_eq table).symm.trans hkey
  exact ensures_storeEntry h fun origin' l' hlayout hadvances hretired hkeeps =>
    hQ value origin' l' hlayout hadvances hretired hkeeps (slotsOf_insert_root rfl hvalue)

/-- Storing the root of an index edits that entry of the catalog alone. -/
theorem ensures_storeIroot {Q : Unit → Origin → Ledger → Prop} (h : Layout es slots l.toForest)
    (hQ : ∀ value origin' l',
      Layout (OrdMap.insert (StoreKey.iroot table index).bytes value es) slots l'.toForest →
      Advances origin l origin' l' → l.root ∈ l'.retired → Keeps slots l l' →
      slotsOf (OrdMap.insert (StoreKey.iroot table index).bytes value es) =
        Function.update (slotsOf es) (.iroot table index) (some r) → Q () origin' l') :
    (storeIroot table index r).Ensures Q origin l := by
  refine .bind (ensures_rej fun key hkey => .bind (ensures_rej fun value hvalue => ?_))
  cases (irootKey_eq table index).symm.trans hkey
  exact ensures_storeEntry h fun origin' l' hlayout hadvances hretired hkeeps =>
    hQ value origin' l' hlayout hadvances hretired hkeeps (slotsOf_insert_root rfl hvalue)

/-- A job that creates a tree and stores its root as that of a new index. -/
def AddsIndex (table index : String) (job : StoreJob Unit) : Prop :=
  ∀ {es : List BTree.Entry} {origin : Origin} {l : Ledger} {Q : Unit → Origin → Ledger → Prop},
    Layout es (slotsOf es) l.toForest → entryIn es (.iroot table index) = none →
    (∀ value origin' l', Layout (OrdMap.insert (StoreKey.iroot table index).bytes value es)
        (slotsOf (OrdMap.insert (StoreKey.iroot table index).bytes value es)) l'.toForest →
      Advances origin l origin' l' → Q () origin' l') →
    job.Ensures Q origin l

theorem createIroot_addsIndex (table : String) (idx : IndexDef) :
    AddsIndex table idx.name (createIroot table idx) := by
  intro es origin l Q h hfresh hQ
  refine .bind (ensures_createTree h (slotsOf_eq_none hfresh)
    fun fresh origin' l' hfill hfirst => ?_)
  refine ensures_storeIroot hfill fun value origin'' l'' hlayout hsecond _ _ hslots => ?_
  exact hQ value origin'' l'' (hslots ▸ hlayout) (hfirst.trans hsecond)

/-- Inserting entries into a tree moves its root and nothing else. -/
theorem ensures_insertAll {k : StoreKey} (entries : List Entry)
    {Q : Nat → Origin → Ledger → Prop} (h : Layout es slots l.toForest) (hk : slots k = some r)
    (hQ : ∀ r' origin' l', Layout es (Function.update slots k (some r')) l'.toForest →
      Advances origin l origin' l' → Q r' origin' l') :
    (entries.foldlM (fun root e => (Job.insert root e.key e.value : StoreJob Nat)) r).Ensures Q
      origin l := by
  induction entries generalizing slots r origin l with
  | nil =>
    refine .ret (hQ r origin l ?_ (.refl origin l))
    rwa [← hk, Function.update_eq_self]
  | cons e entries ih =>
    refine .bind (ensures_mutate h hk (.put e.key e.value) fun r' origin' l' hmove hfirst _ => ?_)
    refine ih hmove (Function.update_self ..) fun r'' origin'' l'' hlayout hrest => ?_
    rw [Function.update_idem] at hlayout
    exact hQ r'' origin'' l'' hlayout (hfirst.trans hrest)

theorem applyBackfill_addsIndex (table : String) (idx : IndexDef) (entries : List Entry) :
    AddsIndex table idx.name (applyBackfill table idx entries) := by
  intro es origin l Q h hfresh hQ
  refine .bind (ensures_createTree h (slotsOf_eq_none hfresh)
    fun fresh origin' l' hfill hfirst => ?_)
  refine .bind (ensures_insertAll entries hfill (Function.update_self ..)
    fun r origin'' l'' hlayout hsecond => ?_)
  rw [Function.update_idem] at hlayout
  refine ensures_storeIroot hlayout fun value origin₃ l₃ hlayout hthird _ _ hslots => ?_
  exact hQ value origin₃ l₃ (hslots ▸ hlayout) (hfirst.trans (hsecond.trans hthird))

/-- Index roots are added one after the other. -/
theorem ensures_addIndexes {α : Type} {f : α → StoreJob Unit} {name : α → String} {as : List α}
    (hf : ∀ a ∈ as, AddsIndex table (name a) (f a)) (hnodup : (as.map name).Nodup)
    (hfresh : ∀ a ∈ as, entryIn es (.iroot table (name a)) = none)
    (h : Layout es (slotsOf es) l.toForest) {Q : Unit → Origin → Ledger → Prop}
    (hQ : ∀ es' origin' l', Layout es' (slotsOf es') l'.toForest → Advances origin l origin' l' →
      Edited (fun k => ∃ index ∈ as.map name, k = .iroot table index) es es' →
      (∀ index ∈ as.map name, entryIn es' (.iroot table index) ≠ none) → Q () origin' l') :
    (as.forM f).Ensures Q origin l := by
  induction as generalizing es origin l with
  | nil => exact .ret (hQ es origin l h (.refl origin l) (.refl _ es) fun _ h => nomatch h)
  | cons a as ih =>
    obtain ⟨hfa, hfas⟩ := List.forall_mem_cons.1 hf
    obtain ⟨hfresha, hfreshas⟩ := List.forall_mem_cons.1 hfresh
    rw [List.map_cons, List.nodup_cons] at hnodup
    refine .bind (hfa h hfresha fun value origin' l' hlayout hfirst => ?_)
    have hne : ∀ index ∈ as.map name, StoreKey.iroot table (name a) ≠ .iroot table index := by
      intro index hindex heq
      injection heq with _ hname
      exact hnodup.1 (hname ▸ hindex)
    refine ih hfas hnodup.2 (fun a' ha' => ?_) hlayout
      fun es' origin'' l'' hlayout hrest hedited hadded => ?_
    · rw [entryIn_insert, if_neg (hne _ (List.mem_map_of_mem ha'))]
      exact hfreshas a' ha'
    · refine hQ es' origin'' l'' hlayout (hfirst.trans hrest) (.trans (.insert ?_)
        (hedited.mono ?_)) (List.forall_mem_cons.2 ⟨?_, hadded⟩)
      · exact ⟨name a, List.mem_cons_self .., rfl⟩
      · rintro k ⟨index, hindex, rfl⟩
        exact ⟨index, List.mem_cons_of_mem _ hindex, rfl⟩
      · rw [hedited.same _ ?_, entryIn_insert, if_pos rfl]
        · exact Option.some_ne_none value
        · rintro ⟨index, hindex, heq⟩
          exact hne index hindex heq

end Indexes

end Edb.Catalog.TreeJob
