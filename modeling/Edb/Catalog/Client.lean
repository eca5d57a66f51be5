import Edb.Catalog.Consistent
import Edb.Catalog.References
import Edb.Catalog.Decode

/-!
# The catalog as a client of the writer

Every catalog job that succeeds leaves the catalog consistent, and either changes nothing or
moves the catalog tree (`catalogClient`). So the catalog is a client the writer can run: what
holds of any client in any life of its database holds of the catalog.
-/

namespace Edb.Catalog.TreeJob

open Edb.Types Edb.Lib Edb.Txn

variable {es : List BTree.Entry} {slots : Slots} {origin : Origin} {l : Ledger}
variable {table index : String} {r : Nat}

/-! ## Definition jobs -/

/-- A definition that passed validation is stored. -/
theorem stored_of_validate {def_ : TableDef} (h : def_.validate = .ok ()) :
    Stored def_.name def_ :=
  ⟨rfl, TableDef.validate_eq_ok h, def_, validateAll_of_validate h⟩

theorem Stored.eraseIndex {def_ : TableDef} (h : Stored table def_) (pos : Nat) :
    Stored table { def_ with indexes := def_.indexes.eraseIdx pos } :=
  ⟨h.name, h.wellFormed.eraseIndex pos, h.checks⟩

/-- The index roots a stored definition lacks are added. -/
theorem ensures_define {α : Type} {f : α → StoreJob Unit} {name : α → String} {as : List α}
    {def_ : TableDef} {bytes : Bytes} {old : List String} (hvalid : def_.validate = .ok ())
    (hbytes : encodeTable def_ = .ok bytes)
    (hnames : def_.indexes.map IndexDef.name = old ++ as.map name)
    (hf : ∀ a ∈ as, AddsIndex def_.name (name a) (f a))
    (hentry : entryIn es (.tbl def_.name) = some bytes)
    (hold : ∀ index, entryIn es (.iroot def_.name index) ≠ none ↔ index ∈ old)
    (h : Layout es (slotsOf es) l.toForest) {Q : Unit → Origin → Ledger → Prop}
    (hQ : ∀ es' origin' l', Layout es' (slotsOf es') l'.toForest → Advances origin l origin' l' →
      Edited (fun k => k.table = def_.name) es es' → Described es' def_.name → Q () origin' l') :
    (as.forM f).Ensures Q origin l := by
  have hstored := stored_of_validate hvalid
  have hnodup : (old ++ as.map name).Nodup := by
    rw [← hnames]
    exact List.pairwise_map.2 hstored.wellFormed.indexNames
  obtain ⟨-, hnew, hdisjoint⟩ := List.nodup_append.1 hnodup
  refine ensures_addIndexes hf hnew (fun a ha => ?_) h
    fun es' origin' l' hlayout hadvances hedited hadded => ?_
  · by_contra hne
    exact hdisjoint _ ((hold (name a)).1 hne) _ (List.mem_map_of_mem ha) rfl
  · refine hQ es' origin' l' hlayout hadvances (hedited.mono ?_)
      (described_of_stored hstored hbytes ?_ fun index => ?_)
    · rintro k ⟨index, -, rfl⟩
      rfl
    · rw [hedited.same _ (by rintro ⟨index, -, heq⟩; cases heq), hentry]
    · rw [hnames, List.mem_append]
      by_cases hindex : index ∈ as.map name
      · exact iff_of_true (hadded index hindex) (.inr hindex)
      · rw [hedited.same _ ?_, hold]
        · exact (or_iff_left hindex).symm
        · rintro ⟨index', hindex', heq⟩
          injection heq with _ heq
          exact hindex (heq ▸ hindex')

theorem ensures_createSeq {def_ : TableDef} (h : Layout es slots l.toForest)
    {Q : Unit → Origin → Ledger → Prop}
    (hQ : ∀ es' origin' l', Layout es' slots l'.toForest → Advances origin l origin' l' →
      Edited (fun k => k = .seq def_.name) es es' → slotsOf es' = slotsOf es → Q () origin' l') :
    (createSeq def_).Ensures Q origin l := by
  unfold createSeq
  split
  · refine .bind (ensures_rej fun key hkey => ?_)
    cases (seqKey_eq def_.name).symm.trans hkey
    exact ensures_storeEntry h fun origin' l' hlayout hadvances _ _ =>
      hQ _ origin' l' hlayout hadvances (.insert rfl) (slotsOf_insert_other rfl)
  · exact .ret (hQ es origin l h (.refl origin l) (.refl _ es) rfl)

/-- Creating a table leaves a consistent store. -/
theorem createTable_leaves {def_ : TableDef} (h : Consistent es l.toForest) :
    (createTable def_).Ensures (fun _ => Leaves origin l) origin l := by
  unfold createTable
  generalize def_.materializeImplicitIndexes = def_
  refine .bind (ensures_rej fun _ hvalid => .bind (ensures_validateFks h.layout ?_))
  refine .bind (ensures_rej fun key hkey => ?_)
  cases (tblKey_eq def_.name).symm.trans hkey
  refine .bind (ensures_lookupEntry h.layout (.bind (ensures_rej fun _ hnone => ?_)))
  have hfresh : entryIn es (.tbl def_.name) = none := Option.isNone_iff_eq_none.1
    (require_eq_ok.1 hnone)
  have habsent := (h.described def_.name).absent hfresh
  refine .bind (ensures_rej fun bytes hbytes => .bind (ensures_ofJob fun _ _ => ?_))
  refine .bind (ensures_createTree (k := .root def_.name) h.layout
    (slotsOf_eq_none (habsent _ rfl)) fun fresh o₁ l₁ hfill h₁ => ?_)
  refine .bind (ensures_storeEntry hfill fun o₂ l₂ htbl h₂ hretired _ => ?_)
  refine .bind (ensures_storeRoot htbl fun value o₃ l₃ hroot h₃ _ _ hslots => ?_)
  rw [slotsOf_insert_other (k := .tbl def_.name) rfl] at hslots
  refine .bind (ensures_createSeq (hslots ▸ hroot) fun es₄ o₄ l₄ hlayout h₄ hseq hsame => ?_)
  -- the entries so far, and none of an index yet
  have htblSame : entryIn es₄ (.tbl def_.name) = some bytes := by
    rw [hseq.same (.tbl def_.name) (fun heq => nomatch heq), entryIn_insert,
      if_neg (fun heq => nomatch heq), entryIn_insert, if_pos rfl]
  have hnoIndex : ∀ index, entryIn es₄ (.iroot def_.name index) = none := fun index => by
    rw [hseq.same (.iroot def_.name index) (fun heq => nomatch heq), entryIn_insert,
      if_neg (fun heq => nomatch heq), entryIn_insert, if_neg (fun heq => nomatch heq),
      habsent _ rfl]
  have hadvances := h₁.trans (h₂.trans (h₃.trans h₄))
  have hretired' : l.root ∈ l₄.retired :=
    (h₃.trans h₄).retired _ (h₁.retires h₂ hretired)
  have hnames : def_.indexes.map IndexDef.name = [] ++ def_.indexes.map IndexDef.name := rfl
  refine ensures_define hvalid hbytes hnames (fun idx _ => createIroot_addsIndex _ idx)
    htblSame (fun index => by simp [hnoIndex index]) (hsame ▸ hlayout)
    fun es' o' l' hlayout h₅ hedited hdescribed => ?_
  refine ⟨es', h.edited ?_ hlayout hdescribed, hadvances.trans h₅, h₅.retired _ hretired'⟩
  refine .trans (.insert rfl) (.trans (.insert rfl) (.trans (hseq.mono ?_) hedited))
  rintro k rfl
  rfl

/-- A definition that takes the place of the stored one, with more indexes, and the jobs that add
their roots. -/
theorem ensures_redefine {α : Type} {f : α → StoreJob Unit} {name : α → String} {as : List α}
    {old def_ : TableDef} {bytes : Bytes} (h : Consistent es l.toForest)
    (hold : ∀ index, entryIn es (.iroot table index) ≠ none ↔
      index ∈ old.indexes.map IndexDef.name)
    (hvalid : def_.validate = .ok ()) (hbytes : encodeTable def_ = .ok bytes)
    (hname : def_.name = table)
    (hnames : def_.indexes.map IndexDef.name = old.indexes.map IndexDef.name ++ as.map name)
    (hf : ∀ a ∈ as, AddsIndex table (name a) (f a)) :
    (storeEntry (StoreKey.tbl table).bytes bytes >>= fun _ => as.forM f).Ensures
      (fun _ => Leaves origin l) origin l := by
  subst hname
  refine .bind (ensures_storeEntry h.layout fun o₁ l₁ hlayout h₁ hretired _ => ?_)
  have hslots : slotsOf (OrdMap.insert (StoreKey.tbl def_.name).bytes bytes es) = slotsOf es :=
    slotsOf_insert_other rfl
  refine ensures_define hvalid hbytes hnames hf ?_ (fun index => ?_) (hslots ▸ hlayout)
    fun es' o' l' hlayout h₂ hedited hdescribed => ?_
  · rw [entryIn_insert, if_pos rfl]
  · rw [entryIn_insert, if_neg (fun heq => nomatch heq), hold]
  · exact ⟨es', h.edited (.trans (.insert (k := .tbl def_.name) rfl) hedited) hlayout hdescribed,
      h₁.trans h₂, h₂.retired _ hretired⟩

/-- Creating an index leaves a consistent store. -/
theorem createIndex_leaves {idx : IndexDef} (h : Consistent es l.toForest) :
    (createIndex table idx).Ensures (fun _ => Leaves origin l) origin l := by
  refine .bind (h.ensures_loadTable fun old _ hstored hold => ?_)
  obtain rfl := hstored.name
  refine .bind (ensures_rej fun _ _ => .bind (ensures_rej fun _ hvalid => ?_))
  refine .bind (ensures_rej fun bytes hbytes => .bind (ensures_rej fun key hkey => ?_))
  cases (tblKey_eq old.name).symm.trans hkey
  refine .bind (ensures_ofJob fun _ _ => .bind (ensures_loadRoot h.layout fun r hr => ?_))
  refine .bind (ensures_computeBackfill h.layout hr fun entries => ?_)
  have hone : [idx].forM (fun idx => applyBackfill old.name idx entries) =
      applyBackfill old.name idx entries := bind_pure _
  rw [← hone]
  exact ensures_redefine h hold hvalid hbytes rfl List.map_append
    fun idx _ => applyBackfill_addsIndex old.name idx entries

/-- Adding a column leaves a consistent store. -/
theorem addColumn_leaves {column : ColumnDef} (h : Consistent es l.toForest) :
    (addColumn table column).Ensures (fun _ => Leaves origin l) origin l := by
  refine .bind (h.ensures_loadTable fun old _ hstored hold => ?_)
  obtain rfl := hstored.name
  refine .bind (ensures_rej fun _ _ => .bind (ensures_rej fun _ _ => ?_))
  refine .bind (ensures_rej fun _ hvalid => .bind (ensures_rej fun bytes hbytes => ?_))
  refine .bind (ensures_rej fun key hkey => ?_)
  cases (tblKey_eq old.name).symm.trans hkey
  refine .bind (ensures_ofJob fun _ _ => .bind (ensures_loadRoot h.layout fun r hr => ?_))
  refine .bind (ensures_mapM (R := fun idx b => idx = b.1) (fun idx _ => ?_)
    fun backfills hall => ?_)
  · exact .bind (ensures_computeBackfill h.layout hr fun _ => .ret ⟨rfl, rfl, rfl⟩)
  · have hbackfills := List.forall₂_eq_eq_eq ▸ List.forall₂_map_right_iff.2 hall
    refine ensures_redefine h hold hvalid hbytes rfl ?_
      fun b _ => applyBackfill_addsIndex old.name b.1 b.2
    rw [TableDef.materializeImplicitIndexes, List.map_append, hbackfills, List.map_map]
    rfl

/-- Dropping the index at a position takes its name away, and no other. -/
theorem mem_names_eraseIdx {d : TableDef} (hd : d.WellFormed) {pos : Nat}
    (hpos : d.indexPos index = some pos) (name : String) :
    name ∈ (d.indexes.eraseIdx pos).map IndexDef.name ↔
      name ≠ index ∧ name ∈ d.indexes.map IndexDef.name := by
  constructor
  · intro hmem
    obtain ⟨idx, hidx, rfl⟩ := List.mem_map.1 hmem
    exact ⟨name_ne_of_mem_eraseIdx hd hpos hidx,
      List.mem_map_of_mem ((List.eraseIdx_sublist _ _).subset hidx)⟩
  · rintro ⟨hne, hmem⟩
    obtain ⟨idx, hidx, rfl⟩ := List.mem_map.1 hmem
    obtain ⟨i, hi, rfl⟩ := List.mem_iff_getElem.1 hidx
    refine List.mem_map_of_mem (List.mem_eraseIdx_iff_getElem.2 ⟨i, hi, ?_, rfl⟩)
    rintro rfl
    rw [TableDef.indexPos, List.findIdx?_eq_some_iff_getElem] at hpos
    exact hne (by simpa using hpos.2.1)

/-- Dropping an index leaves a consistent store. -/
theorem dropIndex_leaves (h : Consistent es l.toForest) :
    (dropIndex table index).Ensures (fun _ => Leaves origin l) origin l := by
  refine .bind (h.ensures_loadTable fun old _ hstored hold => ?_)
  obtain rfl := hstored.name
  refine .bind (ensures_rej fun pos hpos => .bind (ensures_rej fun key hkey => ?_))
  cases (irootKey_eq old.name index).symm.trans hkey
  refine .bind (ensures_loadRootAt rfl h.layout fun r hr => ?_)
  refine .bind (ensures_rej fun bytes hbytes => .bind (ensures_rej fun tbl htbl => ?_))
  cases (tblKey_eq old.name).symm.trans htbl
  refine .bind (ensures_freeTree h.layout hr fun l₁ hclear h₁ _ => ?_)
  refine .bind (ensures_deleteEntry hclear fun o₂ l₂ herase h₂ _ _ => ?_)
  refine ensures_storeEntry herase fun o₃ l₃ hlayout h₃ hretired _ => ?_
  obtain ⟨pos', hpos', hdrop⟩ := Result.bind_eq_ok.1 hpos
  obtain ⟨⟨⟩, -, ⟨⟩⟩ := Result.bind_eq_ok.1 hdrop
  have hslots : slotsOf (OrdMap.insert (StoreKey.tbl old.name).bytes bytes
      (OrdMap.erase (StoreKey.iroot old.name index).bytes es)) =
      Function.update (slotsOf es) (.iroot old.name index) none :=
    (slotsOf_insert_other rfl).trans slotsOf_erase
  have hdescribed : Described (OrdMap.insert (StoreKey.tbl old.name).bytes bytes
      (OrdMap.erase (StoreKey.iroot old.name index).bytes es)) old.name := by
    refine described_of_stored (hstored.eraseIndex pos) hbytes ?_ fun name => ?_
    · rw [entryIn_insert, if_pos rfl]
    · rw [entryIn_insert, if_neg (fun heq => nomatch heq), entryIn_erase,
        mem_names_eraseIdx hstored.wellFormed (okOr_eq_ok.1 hpos')]
      by_cases hname : name = index
      · simp [hname]
      · rw [if_neg (by simpa using Ne.symm hname), hold]
        exact (and_iff_right hname).symm
  exact ⟨_, h.edited (.trans (.erase (k := .iroot old.name index) rfl)
    (.insert (k := .tbl old.name) rfl)) (hslots ▸ hlayout) hdescribed,
    h₁.trans (h₂.trans h₃), (h₁.trans h₂).retires h₃ hretired⟩

/-! ## Dropping a table -/

/-- The entries have been taken away, and no others. -/
structure Removed (P : StoreKey → Prop) (es es' : List BTree.Entry) : Prop where
  edited : Edited P es es'
  gone : ∀ k, P k → entryIn es' k = none

namespace Removed

variable {P P' : StoreKey → Prop} {es' es'' : List BTree.Entry} {k : StoreKey}

theorem erase (k : StoreKey) (es : List BTree.Entry) :
    Removed (· = k) es (OrdMap.erase k.bytes es) := by
  refine ⟨.erase rfl, ?_⟩
  rintro _ rfl
  rw [entryIn_erase, if_pos rfl]

theorem trans (h : Removed P es es') (h' : Removed P' es' es'') :
    Removed (fun k => P k ∨ P' k) es es'' := by
  refine ⟨(h.edited.mono fun _ => .inl).trans (h'.edited.mono fun _ => .inr), fun k hk => ?_⟩
  by_cases hk' : P' k
  · exact h'.gone k hk'
  · rw [h'.edited.same k hk']
    exact h.gone k (hk.resolve_right hk')

/-- What was not there has been taken away, too. -/
theorem widen (h : Removed P es es') (hsub : ∀ k, P k → P' k)
    (habsent : ∀ k, P' k → ¬ P k → entryIn es k = none) : Removed P' es es' := by
  refine ⟨h.edited.mono hsub, fun k hk => ?_⟩
  by_cases hk' : P k
  · exact h.gone k hk'
  · rw [h.edited.same k hk']
    exact habsent k hk hk'

theorem slotsOf_eq_some (h : Removed P es es') (hk : slotsOf es' k = some r) :
    slotsOf es k = some r ∧ ¬ P k := by
  by_cases hP : P k
  · rw [slotsOf_eq_none (h.gone k hP)] at hk
    cases hk
  · refine ⟨?_, hP⟩
    rwa [slotsOf, h.edited.same k hP] at hk

end Removed

theorem Keeps.trans {slots' : Slots} {l' l'' : Ledger} (h : Keeps slots l l')
    (h' : Keeps slots' l' l'') (hsub : ∀ k r, slots' k = some r → slots k = some r) :
    Keeps slots' l l'' :=
  fun k r hk => (h' k r hk).trans (h k r (hsub k r hk))

/-- The slots of the entries, the data tree of the table being gone. -/
def withoutRoot (table : String) (es : List BTree.Entry) : Slots :=
  Function.update (slotsOf es) (.root table) none

theorem Removed.withoutRoot_sub {P : StoreKey → Prop} {es' : List BTree.Entry} {k : StoreKey}
    (h : Removed P es es') (hk : withoutRoot table es' k = some r) :
    withoutRoot table es k = some r := by
  rcases Layout.update_eq_some.1 hk with ⟨-, hk⟩ | ⟨hne, hk⟩
  · cases hk
  · exact (Function.update_of_ne hne ..).trans (h.slotsOf_eq_some hk).1

/-- The index roots of a table that have been collected are dropped one after the other. -/
theorem ensures_dropIroots {roots : List BTree.Entry}
    (hroots : ∀ e ∈ roots, ∃ index, e.1 = (StoreKey.iroot table index).bytes ∧
      entryIn es (.iroot table index) = some e.2)
    (hdistinct : roots.Pairwise (fun a b => a.1 ≠ b.1))
    (h : Layout es (withoutRoot table es) l.toForest) {Q : Unit → Origin → Ledger → Prop}
    (hQ : ∀ es' origin' l', Layout es' (withoutRoot table es') l'.toForest →
      Advances origin l origin' l' → Keeps (withoutRoot table es') l l' →
      Removed (fun k => ∃ e ∈ roots, e.1 = k.bytes) es es' → Q () origin' l') :
    (roots.forM dropIroot).Ensures Q origin l := by
  induction roots generalizing es origin l with
  | nil =>
    refine .ret (hQ es origin l h (.refl origin l) (fun _ _ _ => rfl) ⟨.refl _ es, ?_⟩)
    rintro k ⟨e, he, -⟩
    cases he
  | cons e roots ih =>
    obtain ⟨⟨index, hkey, hentry⟩, hrest⟩ := List.forall_mem_cons.1 hroots
    obtain ⟨hne, hdistinct'⟩ := List.pairwise_cons.1 hdistinct
    obtain ⟨key, value⟩ := e
    subst hkey
    have hother : StoreKey.iroot table index ≠ .root table := fun heq => nomatch heq
    refine .bind (.bind (ensures_rej fun r hr => ?_))
    have hslot : withoutRoot table es (.iroot table index) = some r :=
      (Function.update_of_ne hother ..).trans (slotsOf_eq_some rfl hentry hr)
    refine .bind (ensures_freeTree h hslot fun l₁ hclear h₁ hkeep₁ => ?_)
    -- the slot is cleared as the entry is removed, so the layout follows the entries
    have hslots : Function.update (withoutRoot table es) (.iroot table index) none =
        withoutRoot table (OrdMap.erase (StoreKey.iroot table index).bytes es) := by
      rw [withoutRoot, withoutRoot, slotsOf_erase, Function.update_comm hother]
    rw [hslots] at hclear hkeep₁
    refine ensures_deleteEntry hclear fun o₂ l₂ herase h₂ _ hkeep₂ => ?_
    refine ih (fun e' he' => ?_) hdistinct' herase fun es' o' l' hlayout h₃ hkeep₃ hrest => ?_
    -- the entries still to drop are under other keys
    · obtain ⟨index', hkey', hentry'⟩ := hrest e' he'
      refine ⟨index', hkey', ?_⟩
      rw [entryIn_erase, if_neg, hentry']
      intro heq
      exact hne e' he' ((congrArg StoreKey.bytes heq).trans hkey'.symm)
    · refine hQ es' o' l' hlayout (h₁.trans (h₂.trans h₃))
        ((hkeep₁.trans hkeep₂ fun _ _ => id).trans hkeep₃ fun k r => hrest.withoutRoot_sub)
        (((Removed.erase (.iroot table index) es).trans hrest).widen ?_ ?_)
      · rintro k (rfl | ⟨e', he', hk⟩)
        · exact ⟨_, List.mem_cons_self .., rfl⟩
        · exact ⟨e', List.mem_cons_of_mem _ he', hk⟩
      · rintro k ⟨e', he', hk⟩ hnot
        rcases List.mem_cons.1 he' with rfl | he'
        · exact absurd (.inl (StoreKey.bytes_inj.1 hk).symm) hnot
        · exact absurd (.inr ⟨e', he', hk⟩) hnot

theorem ensures_allTables {Q : List TableDef → Origin → Ledger → Prop}
    (h : Layout es slots l.toForest) (hQ : ∀ defs, Q defs origin l) :
    allTables.Ensures Q origin l :=
  .bind (ensures_rej fun _ _ => .bind (ensures_scanBand h (ensures_rej fun defs _ => hQ defs)))

/-- The entries of the band of a table's index roots. -/
theorem mem_irootBand (h : Consistent es l.toForest) {lo hi : Bytes}
    (hband : irootBand table = .ok (lo, hi)) {e : BTree.Entry} :
    e ∈ es.filter (fun e => BTree.inBounds (some lo) (some hi) e.1) ↔
      ∃ index, e.1 = (StoreKey.iroot table index).bytes ∧
        entryIn es (.iroot table index) = some e.2 := by
  obtain ⟨lo', hi', hband', hbounds⟩ := irootBand_spec table
  cases hband.symm.trans hband'
  rw [List.mem_filter]
  constructor
  · rintro ⟨he, hin⟩
    obtain ⟨k, hk⟩ := h.known e he
    rw [hk] at hin
    obtain ⟨index, rfl⟩ := (hbounds k).1 hin
    exact ⟨index, hk, (OrdMap.find_eq_some_iff h.layout.sorted).2 (hk ▸ he)⟩
  · rintro ⟨index, hk, hentry⟩
    have hmem := (OrdMap.find_eq_some_iff h.layout.sorted).1 hentry
    rw [← hk] at hmem
    exact ⟨hmem, hk ▸ (hbounds _).2 ⟨index, rfl⟩⟩

/-- What a drop leaves: the entries of the table are gone, and the trees of the others untouched. -/
structure Drops (table : String) (es : List BTree.Entry) (origin : Origin) (l : Ledger)
    (es' : List BTree.Entry) (origin' : Origin) (l' : Ledger) : Prop where
  layout : Layout es' (slotsOf es') l'.toForest
  removed : Removed (fun k => k.table = table) es es'
  keeps : Keeps (slotsOf es') l l'
  advances : Advances origin l origin' l'
  retired : l.root ∈ l'.retired

/-- Dropping a table frees its trees and removes its entries from the catalog, and no others. -/
theorem dropTable_drops (h : Consistent es l.toForest) :
    (dropTable table).Ensures (fun _ origin' l' => ∃ es', Drops table es origin l es' origin' l')
      origin l := by
  refine .bind (h.ensures_loadTable fun def_ hbound hstored hold => ?_)
  refine .bind (ensures_allTables h.layout fun others => .bind (ensures_rej fun _ _ => ?_))
  refine .bind (ensures_loadRoot h.layout fun data hdata => ?_)
  refine .bind (ensures_freeTree h.layout hdata fun l₁ hclear h₁ hkeep₁ => ?_)
  refine .bind (ensures_rej fun band hband => .bind (ensures_scanBand hclear ?_))
  have hroots := fun e => mem_irootBand (e := e) h hband
  have hdistinct : (es.filter fun e => BTree.inBounds (some band.1) (some band.2) e.1).Pairwise
      (fun a b => a.1 ≠ b.1) :=
    (h.layout.sorted.sublist List.filter_sublist).imp ne_of_lt
  refine .bind (ensures_dropIroots (fun e he => (hroots e).1 he) hdistinct hclear
    fun es₂ o₂ l₂ hlayout₂ h₂ hkeep₂ hremoved₂ => ?_)
  refine .bind (ensures_rej fun tbl htbl => .bind (ensures_rej fun root hroot => ?_))
  refine .bind (ensures_rej fun seq hseq => ?_)
  cases (tblKey_eq table).symm.trans htbl
  cases (rootKey_eq table).symm.trans hroot
  cases (seqKey_eq table).symm.trans hseq
  refine .bind (ensures_deleteEntry hlayout₂ fun o₃ l₃ hlayout₃ h₃ hretired hkeep₃ => ?_)
  refine .bind (ensures_deleteEntry hlayout₃ fun o₄ l₄ hlayout₄ h₄ _ hkeep₄ => ?_)
  refine ensures_deleteEntry hlayout₄ fun o₅ l₅ hlayout₅ h₅ _ hkeep₅ => ?_
  -- none of the index roots is another entry
  have hiroot : ∀ k : StoreKey, (∃ e ∈ es.filter fun e =>
      BTree.inBounds (some band.1) (some band.2) e.1, e.1 = k.bytes) →
      ∃ index, k = .iroot table index := by
    rintro k ⟨e, he, hk⟩
    obtain ⟨index, hkey, -⟩ := (hroots e).1 he
    exact ⟨index, StoreKey.bytes_inj.1 (hk.symm.trans hkey)⟩
  have hslots : withoutRoot table es₂ =
      slotsOf (OrdMap.erase (StoreKey.seq table).bytes
        (OrdMap.erase (StoreKey.root table).bytes
          (OrdMap.erase (StoreKey.tbl table).bytes es₂))) := by
    have htbl : Function.update (slotsOf es₂) (.tbl table) none = slotsOf es₂ :=
      Function.update_eq_self_iff.2 rfl
    have hseq : Function.update (withoutRoot table es₂) (.seq table) none =
        withoutRoot table es₂ := Function.update_eq_self_iff.2 rfl
    rw [slotsOf_erase, slotsOf_erase, slotsOf_erase, htbl]
    exact hseq.symm
  refine ⟨_, hslots ▸ hlayout₅, ?_, ?_, h₁.trans (h₂.trans (h₃.trans (h₄.trans h₅))), ?_⟩
  · refine (((hremoved₂.trans (.erase (.tbl table) es₂)).trans (.erase (.root table) _)).trans
      (.erase (.seq table) _)).widen ?_ fun k hk hnot => ?_
    · rintro k (((hk | rfl) | rfl) | rfl)
      · obtain ⟨index, rfl⟩ := hiroot k hk
        rfl
      · rfl
      · rfl
      · rfl
    · simp only [not_or] at hnot
      obtain ⟨⟨⟨hk', htbl⟩, hroot⟩, hseq⟩ := hnot
      cases k with
      | tbl t => exact absurd (congrArg StoreKey.tbl hk) htbl
      | root t => exact absurd (congrArg StoreKey.root hk) hroot
      | seq t => exact absurd (congrArg StoreKey.seq hk) hseq
      | iroot t index =>
        cases hk
        by_contra hne
        obtain ⟨value, hvalue⟩ := Option.ne_none_iff_exists'.1 hne
        exact hk' ⟨((StoreKey.iroot t index).bytes, value),
          (hroots ((StoreKey.iroot t index).bytes, value)).2 ⟨index, rfl, hvalue⟩, rfl⟩
  · rw [← hslots]
    exact (hkeep₁.trans hkeep₂ fun k r => hremoved₂.withoutRoot_sub).trans
      (hkeep₃.trans (hkeep₄.trans hkeep₅ fun _ _ => id) fun _ _ => id) fun _ _ => id
  · have hfound : OrdMap.find (StoreKey.tbl table).bytes es₂ ≠ none := by
      have hsame := hremoved₂.edited.same (.tbl table) fun hk => by
        obtain ⟨index, heq⟩ := hiroot _ hk
        cases heq
      exact fun hnone => hbound (hsame.symm.trans hnone)
    exact (h₄.trans h₅).retired _ ((h₁.trans h₂).retires h₃ (hretired hfound))

theorem Drops.leaves {es' : List BTree.Entry} {origin' : Origin} {l' : Ledger}
    (hdrops : Drops table es origin l es' origin' l') (h : Consistent es l.toForest) :
    Leaves origin l origin' l' := by
  refine ⟨es', h.edited hdrops.removed.edited hdrops.layout ⟨fun _ => hdrops.removed.gone, ?_⟩,
    hdrops.advances, hdrops.retired⟩
  intro bytes hbytes
  rw [hdrops.removed.gone (.tbl table) rfl] at hbytes
  cases hbytes

/-! ## Row jobs -/

/-- While a table is written to, its slots are ahead of the entries where a tree has changed. -/
structure Ahead (es : List BTree.Entry) (def_ : TableDef) (slots : Slots) (roots : TableRoots) :
    Prop where
  data : slots (.root def_.name) = some roots.data
  indexes : def_.indexes.map (fun idx => slots (.iroot def_.name idx.name)) =
    roots.indexes.map some
  ahead : ∀ k, slots k ≠ slotsOf es k → k = .root def_.name ∨ ∃ i idx, i ∈ roots.touched ∧
    def_.indexes[i]? = some idx ∧ k = .iroot def_.name idx.name

/-- What an edit does to the bindings in the slots. -/
def TreeEdit.on (def_ : TableDef) (c : Contents) : TreeEdit → Contents
  | .row op => editContents (.root def_.name) op c
  | .entry i op =>
    match def_.indexes[i]? with
    | none => c
    | some idx => editContents (.iroot def_.name idx.name) op c

section Edits

variable {def_ : TableDef} {roots : TableRoots}

theorem Ahead.slot (ha : Ahead es def_ slots roots) {i : Nat} {idx : IndexDef}
    (hidx : def_.indexes[i]? = some idx) :
    slots (.iroot def_.name idx.name) = roots.indexes[i]? := by
  have hi : (def_.indexes.map fun idx => slots (.iroot def_.name idx.name))[i]? = _ :=
    congrArg (fun o : List (Option Nat) => o[i]?) ha.indexes
  rw [List.getElem?_map, List.getElem?_map, hidx, Option.map_some] at hi
  obtain ⟨r, hr, hslot⟩ := Option.map_eq_some_iff.1 hi.symm
  rw [hr, hslot]

/-- Moving one index tree moves it at its position only: the names are distinct. -/
theorem map_update_iroot (hnames : def_.indexes.Pairwise (fun a b => a.name ≠ b.name)) {i : Nat}
    {idx : IndexDef} (hidx : def_.indexes[i]? = some idx) (o : Option Nat) :
    def_.indexes.map (fun idx' =>
      Function.update slots (.iroot def_.name idx.name) o (.iroot def_.name idx'.name)) =
      (def_.indexes.map fun idx' => slots (.iroot def_.name idx'.name)).set i o := by
  apply List.ext_getElem?
  intro j
  obtain ⟨hi, rfl⟩ := List.getElem?_eq_some_iff.1 hidx
  rw [List.getElem?_set, List.getElem?_map, List.getElem?_map]
  by_cases hij : i = j
  · subst hij
    simp [hi]
  · rw [if_neg hij]
    cases hj : def_.indexes[j]? with
    | none => rfl
    | some idx' =>
      obtain ⟨hlt, rfl⟩ := List.getElem?_eq_some_iff.1 hj
      have hne : def_.indexes[j].name ≠ def_.indexes[i].name := by
        have hp := List.pairwise_iff_getElem.1 hnames
        rcases Nat.lt_or_gt_of_ne hij with hij | hji
        · exact (hp i j hi hlt hij).symm
        · exact hp j i hlt hi hji
      simp [hne]

/-- One edit of a table's tree moves the root of that tree and nothing else. -/
theorem ensures_applyEdit (hnames : def_.indexes.Pairwise (fun a b => a.name ≠ b.name))
    (h : Layout es slots l.toForest) (ha : Ahead es def_ slots roots) (edit : TreeEdit)
    {Q : TableRoots → Origin → Ledger → Prop}
    (hQ : ∀ slots' roots' origin' l', Layout es slots' l'.toForest → Ahead es def_ slots' roots' →
      Advances origin l origin' l' →
      contentsIn slots' l'.toForest = edit.on def_ (contentsIn slots l.toForest) →
      Q roots' origin' l') :
    (applyEdit roots edit).Ensures Q origin l := by
  cases edit with
  | row op =>
    refine .bind (ensures_mutate h ha.data op fun r o' l' hlayout hadvances hcontents => ?_)
    refine .ret (hQ _ _ o' l' hlayout ⟨Function.update_self .., ?_, fun k hk => ?_⟩ hadvances
      hcontents)
    · rw [← ha.indexes]
      exact List.map_congr_left fun idx _ => Function.update_of_ne (by simp) ..
    · by_cases hroot : k = .root def_.name
      · exact .inl hroot
      · rw [Function.update_of_ne hroot] at hk
        exact ha.ahead k hk
  | entry i op =>
    rw [applyEdit]
    split
    · next hnone =>
      -- no root at this position, so no index either: the edit is of nothing
      have hidx : (def_.indexes.map fun idx => slots (.iroot def_.name idx.name))[i]? = none := by
        rw [ha.indexes, List.getElem?_map, hnone]
        rfl
      rw [List.getElem?_map, Option.map_eq_none_iff] at hidx
      refine .ret (hQ slots roots origin l h ha (.refl origin l) ?_)
      rw [TreeEdit.on, hidx]
    · next root hroot =>
      -- the slot of the index moves ahead of the catalog, the others stay
      have hslot : (def_.indexes.map fun idx => slots (.iroot def_.name idx.name))[i]? =
          some (some root) := by
        rw [ha.indexes, List.getElem?_map, hroot]
        rfl
      rw [List.getElem?_map, Option.map_eq_some_iff] at hslot
      obtain ⟨idx, hidx, hslot⟩ := hslot
      refine .bind (ensures_mutate h hslot op fun r o' l' hlayout hadvances hcontents => ?_)
      refine .ret (hQ _ _ o' l' hlayout ⟨?_, ?_, fun k hk => ?_⟩ hadvances ?_)
      · exact (Function.update_of_ne (by simp) ..).trans ha.data
      · rw [map_update_iroot hnames hidx, ha.indexes, List.map_set]
      · by_cases hkey : k = .iroot def_.name idx.name
        · exact .inr ⟨i, idx, List.mem_cons_self .., hidx, hkey⟩
        · rw [Function.update_of_ne hkey] at hk
          refine (ha.ahead k hk).imp_right ?_
          rintro ⟨j, idx', hj, hidx'⟩
          exact ⟨j, idx', List.mem_cons_of_mem _ hj, hidx'⟩
      · rw [hcontents, TreeEdit.on, hidx]

/-- So do edits one after another. -/
theorem ensures_applyEdits (hnames : def_.indexes.Pairwise (fun a b => a.name ≠ b.name))
    (edits : List TreeEdit) (h : Layout es slots l.toForest) (ha : Ahead es def_ slots roots)
    {Q : TableRoots → Origin → Ledger → Prop}
    (hQ : ∀ slots' roots' origin' l', Layout es slots' l'.toForest → Ahead es def_ slots' roots' →
      Advances origin l origin' l' →
      contentsIn slots' l'.toForest =
        edits.foldl (TreeEdit.on def_) (contentsIn slots l.toForest) → Q roots' origin' l') :
    (edits.foldlM applyEdit roots).Ensures Q origin l := by
  induction edits generalizing slots roots origin l with
  | nil => exact .ret (hQ slots roots origin l h ha (.refl origin l) rfl)
  | cons edit edits ih =>
    refine .bind (ensures_applyEdit hnames h ha edit
      fun slots₁ roots₁ o₁ l₁ hlayout ha₁ h₁ hcontents => ?_)
    refine ih hlayout ha₁ fun slots' roots' o' l' hlayout ha' h₂ hcontents' => ?_
    rw [hcontents] at hcontents'
    exact hQ slots' roots' o' l' hlayout ha' (h₁.trans h₂) hcontents'

end Edits

/-- The entries after a table was written to: it has the same definition and the same indexes. -/
structure Rewritten (table : String) (es es' : List BTree.Entry) : Prop where
  edited : Edited (fun k => k.table = table) es es'
  tbl : entryIn es' (.tbl table) = entryIn es (.tbl table)
  iroots : ∀ index, entryIn es' (.iroot table index) ≠ none ↔ entryIn es (.iroot table index) ≠ none

namespace Rewritten

variable {es' es'' : List BTree.Entry} {k : StoreKey} {value : Bytes}

theorem refl (table : String) (es : List BTree.Entry) : Rewritten table es es :=
  ⟨.refl _ es, rfl, fun _ => Iff.rfl⟩

theorem trans (h : Rewritten table es es') (h' : Rewritten table es' es'') :
    Rewritten table es es'' :=
  ⟨h.edited.trans h'.edited, h'.tbl.trans h.tbl, fun index =>
    (h'.iroots index).trans (h.iroots index)⟩

theorem insert (hk : k.table = table) (htbl : k ≠ .tbl table)
    (hbound : ∀ index, k = .iroot table index → entryIn es k ≠ none) :
    Rewritten table es (OrdMap.insert k.bytes value es) := by
  refine ⟨.insert hk, ?_, fun index => ?_⟩
  · rw [entryIn_insert, if_neg htbl]
  · rw [entryIn_insert]
    split
    · next heq => exact iff_of_true (Option.some_ne_none value) (heq ▸ hbound index heq)
    · exact Iff.rfl

end Rewritten

theorem Described.rewritten {es' : List BTree.Entry} (h : Described es table)
    (hw : Rewritten table es es') (hbound : entryIn es (.tbl table) ≠ none) :
    Described es' table := by
  refine ⟨fun habsent => absurd (hw.tbl.symm.trans habsent) hbound, fun bytes hbytes => ?_⟩
  obtain ⟨def_, hdecode, hstored, hindexes⟩ := h.present bytes (hw.tbl.symm.trans hbytes)
  exact ⟨def_, hdecode, hstored, fun index => (hw.iroots index).trans (hindexes index)⟩

/-- Storing the roots that are ahead brings the entries up to the slots. No other entry changes, and
no tree. -/
theorem ensures_storeIroots {stored : Nat → Bool} {i : Nat} {pairs : List (IndexDef × Nat)}
    (h : Layout es slots l.toForest)
    (hpairs : ∀ p ∈ pairs, slots (.iroot table p.1.name) = some p.2)
    (hbound : ∀ p ∈ pairs, entryIn es (.iroot table p.1.name) ≠ none)
    (hahead : ∀ k, slots k ≠ slotsOf es k → ∃ j p, pairs[j]? = some p ∧ stored (i + j) = true ∧
      k = .iroot table p.1.name) {Q : Unit → Origin → Ledger → Prop}
    (hQ : ∀ es' origin' l', Layout es' (slotsOf es') l'.toForest → Advances origin l origin' l' →
      Rewritten table es es' → entryIn es' (.seq table) = entryIn es (.seq table) →
      contentsIn (slotsOf es') l'.toForest = contentsIn slots l.toForest → Q () origin' l') :
    (storeIroots table stored i pairs).Ensures Q origin l := by
  induction pairs generalizing i es origin l with
  | nil =>
    have hsame : slots = slotsOf es := by
      funext k
      by_contra hne
      obtain ⟨j, p, hj, -⟩ := hahead k hne
      cases hj
    subst hsame
    exact .ret (hQ es origin l h (.refl origin l) (.refl table es) rfl rfl)
  | cons p pairs ih =>
    obtain ⟨idx, r⟩ := p
    obtain ⟨hp, hps⟩ := List.forall_mem_cons.1 hpairs
    obtain ⟨hboundp, hbounds⟩ := List.forall_mem_cons.1 hbound
    -- a slot that is ahead of the entries, but not this one, is one of a later position
    have hlater : ∀ k : StoreKey, (∃ j p, ((idx, r) :: pairs)[j]? = some p ∧
        stored (i + j) = true ∧ k = .iroot table p.1.name) →
        (stored i = true → k ≠ .iroot table idx.name) →
        ∃ j p, pairs[j]? = some p ∧ stored (i + 1 + j) = true ∧ k = .iroot table p.1.name := by
      rintro k ⟨_ | j, p, hj, hstored, hk⟩ hne
      · cases hj
        exact absurd hk (hne hstored)
      · rw [← Nat.add_assoc, Nat.add_right_comm] at hstored
        exact ⟨j, p, hj, hstored, hk⟩
    unfold storeIroots
    refine .bind ?_
    split
    · refine ensures_storeIroot h fun value o₁ l₁ hlayout h₁ _ hkeeps hslots => ?_
      have hw : Rewritten table es (OrdMap.insert (StoreKey.iroot table idx.name).bytes value es) :=
        .insert rfl (fun heq => nomatch heq) fun _ _ => hboundp
      have hsame : entryIn (OrdMap.insert (StoreKey.iroot table idx.name).bytes value es)
          (.seq table) = entryIn es (.seq table) := by
        rw [entryIn_insert, if_neg (fun heq => nomatch heq)]
      refine ih hlayout hps (fun p hmem => (hw.iroots p.1.name).2 (hbounds p hmem))
        (fun k hk => ?_) fun es' o' l' hlayout' h₂ hw' hseq hcontents =>
          hQ es' o' l' hlayout' (h₁.trans h₂) (hw.trans hw') (hseq.trans hsame)
            (hcontents.trans hkeeps.contents)
      have hne : k ≠ .iroot table idx.name := by
        rintro rfl
        rw [hslots, Function.update_self] at hk
        exact hk hp
      rw [hslots, Function.update_of_ne hne] at hk
      exact hlater k (hahead k hk) fun _ => hne
    · next hstored =>
      exact .ret (ih h hps hbounds
        (fun k hk => hlater k (hahead k hk) fun h => absurd h hstored) hQ)

/-- What the writes to a table leave: its trees have been edited and the others have not, its
definition is the same, and its sequence has moved if it was to. -/
structure Writes (w : TableWrite) (def_ : TableDef) (es : List BTree.Entry) (origin : Origin)
    (l : Ledger) (es' : List BTree.Entry) (origin' : Origin) (l' : Ledger) : Prop where
  found : ∃ bytes, entryIn es (.tbl w.table) = some bytes ∧ decodeTable bytes = .ok def_
  name : def_.name = w.table
  layout : Layout es' (slotsOf es') l'.toForest
  rewritten : Rewritten w.table es es'
  contents : contentsIn (slotsOf es') l'.toForest =
    w.edits.foldl (TreeEdit.on def_) (contentsIn (slotsOf es) l.toForest)
  seq : entryIn es' (.seq w.table) = (w.seq.map encodeSeq).or (entryIn es (.seq w.table))
  advances : Advances origin l origin' l'
  retired : l.root ∈ l'.retired

/-- A table's job applies the edits of its rows to the trees and stores their new roots. -/
theorem writeTable_writes {w : TableWrite} (h : Consistent es l.toForest) :
    (writeTable w).Ensures
      (fun _ origin' l' => ∃ def_ es', Writes w def_ es origin l es' origin' l') origin l := by
  obtain ⟨table, edits, everyIndex, seq⟩ := w
  refine .bind (ensures_loadTable h.layout fun bytes def_ hbytes hdecode => ?_)
  obtain ⟨def', hdecode', hstored, hold⟩ := (h.described table).present bytes hbytes
  cases hdecode.symm.trans hdecode'
  obtain rfl := hstored.name
  refine .bind (ensures_loadRoot h.layout fun data hdata => ?_)
  refine .bind (ensures_loadIndexRoots h.layout fun indexes hindexes => ?_)
  have hstart : Ahead es def_ (slotsOf es) ⟨data, indexes, []⟩ := by
    refine ⟨hdata, ?_, fun k hk => absurd rfl hk⟩
    exact List.forall₂_eq_eq_eq ▸
      List.forall₂_map_left_iff.2 (List.forall₂_map_right_iff.2 hindexes)
  refine .bind (ensures_applyEdits hstored.wellFormed.indexNames edits h.layout hstart
    fun slots roots o₁ l₁ hlayout ha h₁ hedits => ?_)
  refine .bind (ensures_storeRoot hlayout
    fun value o₂ l₂ hroot h₂ hretired hkeeps hslots => ?_)
  have hw : Rewritten def_.name es (OrdMap.insert (StoreKey.root def_.name).bytes value es) :=
    .insert rfl (fun heq => nomatch heq) fun _ heq => nomatch heq
  -- the pairs of an index and its root, position by position
  have hpair : ∀ p ∈ def_.indexes.zip roots.indexes,
      p.1 ∈ def_.indexes ∧ slots (.iroot def_.name p.1.name) = some p.2 := by
    intro p hp
    obtain ⟨i, hi⟩ := List.mem_iff_getElem?.1 hp
    obtain ⟨hidx, hr⟩ := List.getElem?_zip_eq_some.1 hi
    exact ⟨List.mem_of_getElem? hidx, (ha.slot hidx).trans hr⟩
  refine .bind (ensures_storeIroots hroot (fun p hp => (hpair p hp).2) (fun p hp => ?_)
    (fun k hk => ?_) fun es₃ o₃ l₃ hlayout₃ h₃ hw₃ hseq₃ hcontents₃ => ?_)
  · exact (hw.iroots p.1.name).2 ((hold p.1.name).2 (List.mem_map_of_mem (hpair p hp).1))
  · have hne : k ≠ .root def_.name := by
      rintro rfl
      rw [hslots, Function.update_self] at hk
      exact hk ha.data
    rw [hslots, Function.update_of_ne hne] at hk
    obtain ⟨i, idx, hi, hidx, rfl⟩ := (ha.ahead k hk).resolve_left hne
    obtain ⟨r, hr⟩ : ∃ r, roots.indexes[i]? = some r := by
      have hlen := congrArg List.length ha.indexes
      rw [List.length_map, List.length_map] at hlen
      obtain ⟨hlt, -⟩ := List.getElem?_eq_some_iff.1 hidx
      exact ⟨_, List.getElem?_eq_getElem (hlen ▸ hlt)⟩
    refine ⟨i, (idx, r), List.getElem?_zip_eq_some.2 ⟨hidx, hr⟩, ?_, rfl⟩
    simp [hi]
  · have hcontents := (hcontents₃.trans hkeeps.contents).trans hedits
    have hseq : entryIn es₃ (.seq def_.name) = entryIn es (.seq def_.name) := by
      rw [hseq₃, entryIn_insert, if_neg (fun heq => nomatch heq)]
    have hw' := hw.trans hw₃
    have hadvances := h₁.trans (h₂.trans h₃)
    have hretired₃ := h₃.retired _ (h₁.retires h₂ hretired)
    cases seq with
    | none =>
      exact .ret ⟨def_, es₃, ⟨bytes, hbytes, hdecode⟩, rfl, hlayout₃, hw', hcontents, hseq,
        hadvances, hretired₃⟩
    | some next =>
      refine .bind (ensures_rej fun key hkey => ?_)
      cases (seqKey_eq def_.name).symm.trans hkey
      refine ensures_storeEntry hlayout₃ fun o₄ l₄ hlayout₄ h₄ _ hkeeps₄ => ?_
      have hslots₄ : slotsOf (OrdMap.insert (StoreKey.seq def_.name).bytes (encodeSeq next) es₃) =
          slotsOf es₃ := slotsOf_insert_other rfl
      have hw₄ : Rewritten def_.name es₃
          (OrdMap.insert (StoreKey.seq def_.name).bytes (encodeSeq next) es₃) :=
        .insert rfl (fun heq => nomatch heq) fun _ heq => nomatch heq
      refine ⟨def_, _, ⟨bytes, hbytes, hdecode⟩, rfl, hslots₄ ▸ hlayout₄, hw'.trans hw₄, ?_, ?_,
        hadvances.trans h₄, h₄.retired _ hretired₃⟩
      · rw [hslots₄, hkeeps₄.contents, hcontents]
      · rw [entryIn_insert, if_pos rfl]
        rfl

theorem Writes.consistent {w : TableWrite} {def_ : TableDef} {es' : List BTree.Entry}
    {origin' : Origin} {l' : Ledger} (hw : Writes w def_ es origin l es' origin' l')
    (h : Consistent es l.toForest) : Consistent es' l'.toForest := by
  obtain ⟨bytes, hbytes, -⟩ := hw.found
  have hbound : entryIn es (.tbl w.table) ≠ none := by simp [hbytes]
  exact h.edited hw.rewritten.edited hw.layout
    ((h.described w.table).rewritten hw.rewritten hbound)

theorem writeTable_leaves {w : TableWrite} (h : Consistent es l.toForest) :
    (writeTable w).Ensures (fun _ => Leaves origin l) origin l := by
  refine (writeTable_writes h).mono ?_
  rintro - o' l' ⟨def_, es', hw⟩
  exact ⟨es', hw.consistent h, hw.advances, hw.retired⟩

/-- The writes of a row job that has any. -/
theorem writeRows_leaves {ws : List TableWrite} (h : Consistent es l.toForest) :
    (writeRows ws).Ensures
      (fun _ origin' l' => Leaves origin l origin' l' ∨ (origin' = origin ∧ l' = l)) origin l := by
  induction ws generalizing es origin l with
  | nil => exact .ret (.inr ⟨rfl, rfl⟩)
  | cons w ws ih =>
    refine .bind ((writeTable_leaves h).mono ?_)
    rintro - o₁ l₁ ⟨es₁, h₁, hadvances, hretired⟩
    refine (ih h₁).mono ?_
    rintro - o₂ l₂ (⟨es₂, h₂, hadvances₂, -⟩ | ⟨rfl, rfl⟩)
    · exact .inl ⟨es₂, h₂, hadvances.trans hadvances₂, hadvances₂.retired _ hretired⟩
    · exact .inl ⟨es₁, h₁, hadvances, hretired⟩

/-! ## The client -/

/-- A job that succeeds and changes anything leaves the catalog consistent. -/
theorem apply_leaves (h : Consistent es l.toForest) (request : Request) :
    (apply request).Ensures
      (fun _ origin' l' => Leaves origin l origin' l' ∨ (origin' = origin ∧ l' = l)) origin l := by
  cases request with
  | createTable def_ => exact (createTable_leaves h).mono fun _ _ _ => .inl
  | dropTable table =>
    exact (dropTable_drops h).mono fun _ _ _ ⟨_, hdrops⟩ => .inl (hdrops.leaves h)
  | addColumn table column => exact (addColumn_leaves h).mono fun _ _ _ => .inl
  | createIndex table index => exact (createIndex_leaves h).mono fun _ _ _ => .inl
  | dropIndex table index => exact (dropIndex_leaves h).mono fun _ _ _ => .inl
  | writeRows writes => exact writeRows_leaves h

/-- The key is one of an entry that leads to a tree. -/
def namesTree (key : Bytes) : Bool :=
  (StoreKey.encode ["root"]).isPrefixOf key || (StoreKey.encode ["iroot"]).isPrefixOf key

/-- The tree an entry of the catalog tree names. -/
def treeOf (e : BTree.Entry) : Option Nat :=
  if namesTree e.1 then (decodeRoot e.2).toOption else none

theorem namesTree_bytes (k : StoreKey) : namesTree k.bytes = isTree k := by
  have hprefix : ∀ name, (StoreKey.encode [name]).isPrefixOf k.bytes = true ↔ [name] <+: k.names :=
    fun name => List.isPrefixOf_iff_prefix.trans
      (StoreKey.encode_prefix_iff (le_trans (Nat.le_succ 1) k.two_le_length))
  rw [Bool.eq_iff_iff, namesTree, Bool.or_eq_true, hprefix, hprefix]
  cases k <;> simp [StoreKey.names, isTree]

/-- The slots are the trees the entries name. -/
theorem slotsOf_eq_some_iff (hsorted : OrdMap.Sorted es) {k : StoreKey} :
    slotsOf es k = some r ↔ ∃ e ∈ es, e.1 = k.bytes ∧ treeOf e = some r := by
  have hfind : ∀ value, entryIn es k = some value ↔ (k.bytes, value) ∈ es := fun value =>
    OrdMap.find_eq_some_iff hsorted
  constructor
  · intro hk
    rw [slotsOf] at hk
    split at hk
    · next htree =>
      obtain ⟨value, hvalue, hr⟩ := Option.bind_eq_some_iff.1 hk
      refine ⟨(k.bytes, value), (hfind value).1 hvalue, rfl, ?_⟩
      rw [treeOf, namesTree_bytes, if_pos htree, hr]
    · cases hk
  · rintro ⟨⟨key, value⟩, he, rfl, hr⟩
    rw [treeOf, namesTree_bytes] at hr
    split at hr
    · next htree => rw [slotsOf, if_pos htree, (hfind value).2 he, Option.bind_some, hr]
    · cases hr

/-- In a consistent store every tree is named by one entry of the catalog. -/
theorem Consistent.named {f : Forest} (h : Consistent es f) : f.Named treeOf := by
  obtain ⟨t, ht, rfl⟩ := h.layout.catalog
  have hsorted := h.layout.sorted
  have hmem : ∀ r, r ∈ t.entries.filterMap treeOf ↔ ∃ k, slotsOf t.entries k = some r := by
    intro r
    rw [List.mem_filterMap]
    constructor
    · rintro ⟨e, he, hr⟩
      obtain ⟨k, hk⟩ := h.known e he
      exact ⟨k, (slotsOf_eq_some_iff hsorted).2 ⟨e, he, hk, hr⟩⟩
    · rintro ⟨k, hk⟩
      obtain ⟨e, he, -, hr⟩ := (slotsOf_eq_some_iff hsorted).1 hk
      exact ⟨e, he, hr⟩
  refine ⟨t, ht, List.nodup_cons.2 ⟨fun hroot => ?_, ?_⟩, fun r => ?_⟩
  · obtain ⟨k, hk⟩ := (hmem f.root).1 hroot
    exact h.layout.apart k hk
  · -- two entries that name one tree have one key
    refine List.pairwise_filterMap.2 (hsorted.imp_of_mem ?_)
    rintro e e' he he' hlt r hr r' hr' rfl
    obtain ⟨k, hk⟩ := h.known e he
    obtain ⟨k', hk'⟩ := h.known e' he'
    have hsame := h.layout.inj ((slotsOf_eq_some_iff hsorted).2 ⟨e, he, hk, hr⟩)
      ((slotsOf_eq_some_iff hsorted).2 ⟨e', he', hk', hr'⟩)
    rw [hk, hk', hsame] at hlt
    exact lt_irrefl _ hlt
  · rw [List.mem_cons, hmem]
    exact h.layout.current r

/-- The store of an empty catalog is consistent. -/
theorem consistent_created (r : Nat) (t : TreeState) (ht : t.entries = []) :
    Consistent [] (Forest.single r t) := by
  have hslots : ∀ k, slotsOf [] k = none := fun k => slotsOf_eq_none rfl
  refine ⟨⟨⟨t, if_pos rfl, ht⟩, ?_, fun r' => ?_, ?_⟩, (by intro _ h; cases h), fun table =>
    ⟨fun _ _ _ => rfl, by intro _ h; cases h⟩⟩
  · intro k k' r' hk
    rw [hslots] at hk
    cases hk
  · by_cases hr : r' = r <;> simp [Forest.single, hslots, hr]
  · intro k hk
    rw [hslots] at hk
    cases hk

/-- The catalog database. -/
def catalogClient : Client where
  Reject := CatalogError
  Out := Unit
  Request := Request
  apply := apply
  name := treeOf
  Inv := fun f => ∃ es, Consistent es f
  created := fun r t ht => ⟨[], consistent_created r t ht⟩
  named := fun ⟨_, h⟩ => h.named
  keeps := by
    rintro f ⟨es, h⟩ request
    have hleaves : (apply request).Ensures _ some (Ledger.start f) := apply_leaves h request
    refine Job.Ensures.wp (hleaves.mono ?_)
    rintro - o l (⟨es', h', -, hretired⟩ | ⟨-, rfl⟩)
    · exact ⟨⟨es', h'⟩, .inl hretired⟩
    · exact ⟨⟨es, h⟩, .inr ⟨rfl, rfl⟩⟩

end Edb.Catalog.TreeJob
