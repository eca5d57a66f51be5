import Edb.Catalog.Edit
import Edb.Catalog.WellFormed

/-!
# Foreign keys across definition jobs

A foreign key is checked against its parent when the child is created and never again. The
invariant that every later job has to keep: tables are listed once and under their names,
definitions are well formed, every index has its tree, and every foreign key finds a parent
whose columns are of its kinds. Whether the parent columns are still a key depends on the
indexes that were dropped.
-/

namespace Edb.Catalog

open Edb.Types Edb.Lib

/-! ## The invariant -/

/-- A table stands under its name, with a well-formed definition and a tree for each index.
An ON UPDATE CASCADE never reaches into the primary key. -/
structure TableImage.WellFormed (t : String) (image : TableImage) : Prop where
  named : image.def_.name = t
  def_ : image.def_.WellFormed
  trees : ∀ idx ∈ image.def_.indexes, (OrdMap.find idx.name image.indexes).isSome
  cascades : ∀ fk ∈ image.def_.foreignKeys, fk.onUpdate = .cascade →
    ∀ name ∈ fk.columns, name ∉ image.def_.pk

/-- A foreign key of a definition refers to a table there is, kind by kind. -/
def ForeignKey.Typed (s : CatState) (d : TableDef) (fk : ForeignKey) : Prop :=
  ∃ parent, OrdMap.find fk.parent s.tables = some parent ∧
    ∀ c ∈ fk.columns.zip fk.parentColumns, kindsMatch d parent.def_ c = true

/-- What every job keeps of the schema. -/
structure CatState.WellFormed (s : CatState) : Prop where
  sorted : OrdMap.Sorted s.tables
  tables : ∀ t image, OrdMap.find t s.tables = some image → image.WellFormed t
  typed : ∀ t image, OrdMap.find t s.tables = some image →
    ∀ fk ∈ image.def_.foreignKeys, fk.Typed s image.def_

/-- Every kind of a definition is a kind of another. -/
def TableDef.KindsIn (d d' : TableDef) : Prop :=
  ∀ name kind, d.kindOf name = some kind → d'.kindOf name = some kind

theorem TableDef.KindsIn.refl (d : TableDef) : d.KindsIn d := fun _ _ h => h

theorem kindsMatch_iff {child parent : TableDef} {c : String × String} :
    kindsMatch child parent c = true ↔
      ∃ kind, child.kindOf c.1 = some kind ∧ parent.kindOf c.2 = some kind := by
  rw [kindsMatch]
  cases hc : child.kindOf c.1 <;> cases hp : parent.kindOf c.2 <;> simp [eq_comm]

theorem kindsMatch_mono {child child' parent parent' : TableDef} {c : String × String}
    (hc : child.KindsIn child') (hp : parent.KindsIn parent')
    (h : kindsMatch child parent c = true) : kindsMatch child' parent' c = true := by
  rw [kindsMatch_iff] at h ⊢
  obtain ⟨kind, hkc, hkp⟩ := h
  exact ⟨kind, hc _ _ hkc, hp _ _ hkp⟩

theorem TableImage.WellFormed.edited {P : RowProp} {t : String} {a b : TableImage}
    (h : a.WellFormed t) (hab : a.Edited P b) : b.WellFormed t := by
  have hd := hab.def_eq
  constructor
  · rw [hd]
    exact h.named
  · rw [hd]
    exact h.def_
  · rw [hd]
    exact fun idx hidx => (hab.trees idx.name).trans (h.trees idx hidx)
  · rw [hd]
    exact h.cascades

namespace CatState.WellFormed

variable {s s' : CatState}

theorem empty : CatState.empty.WellFormed := by
  constructor
  · exact OrdMap.sorted_nil
  · intro t image h
    cases h
  · intro t image h
    cases h

/-- A table's image is replaced by one with the same foreign keys and no kind lost. -/
theorem store {t : String} {a b : TableImage} (h : s.WellFormed)
    (ha : OrdMap.find t s.tables = some a) (hb : b.WellFormed t)
    (hfks : b.def_.foreignKeys = a.def_.foreignKeys) (hkinds : a.def_.KindsIn b.def_) :
    (s.store t b).WellFormed := by
  -- a parent of `s` is still a parent, under kinds that only grew
  have hparent : ∀ d d' : TableDef, d.KindsIn d' → ∀ fk : ForeignKey, fk.Typed s d →
      fk.Typed (s.store t b) d' := by
    intro d d' hd fk hfk
    obtain ⟨parent, hfind, hmatch⟩ := hfk
    by_cases ht : t = fk.parent
    · subst ht
      cases ha.symm.trans hfind
      refine ⟨b, ?_, fun c hc => kindsMatch_mono hd hkinds (hmatch c hc)⟩
      exact (OrdMap.find_insert _ _ _ _).trans (if_pos rfl)
    · refine ⟨parent, ?_, fun c hc => kindsMatch_mono hd (.refl _) (hmatch c hc)⟩
      exact (OrdMap.find_insert _ _ _ _).trans ((if_neg ht).trans hfind)
  have hcases : ∀ u image, OrdMap.find u (s.store t b).tables = some image →
      (u = t ∧ image = b) ∨ OrdMap.find u s.tables = some image := by
    intro u image himage
    have himage := (OrdMap.find_insert _ _ _ _).symm.trans himage
    split at himage
    · next hu =>
      cases himage
      exact .inl ⟨hu.symm, rfl⟩
    · exact .inr himage
  constructor
  · exact h.sorted.insert
  · intro u image himage
    rcases hcases u image himage with ⟨rfl, rfl⟩ | himage
    · exact hb
    · exact h.tables u image himage
  · intro u image himage fk hfk
    rcases hcases u image himage with ⟨rfl, rfl⟩ | himage
    · rw [hfks] at hfk
      exact hparent _ _ hkinds fk (h.typed u a ha fk hfk)
    · exact hparent _ _ (.refl _) fk (h.typed u image himage fk hfk)

/-- Row jobs keep the schema. -/
theorem edited {P : RowProp} (h : s.WellFormed) (hs : s.Edited P s') : s'.WellFormed := by
  constructor
  · exact hs.sorted h.sorted
  · intro t b hb
    obtain ⟨a, ha, hab⟩ := hs.back hb
    exact (h.tables t a ha).edited hab
  · intro t b hb fk hfk
    obtain ⟨a, ha, hab⟩ := hs.back hb
    rw [hab.def_eq] at hfk ⊢
    obtain ⟨parent, hfind, hmatch⟩ := h.typed t a ha fk hfk
    obtain ⟨parent', hfind', hedit⟩ := hs.some _ _ hfind
    refine ⟨parent', hfind', ?_⟩
    rw [hedit.def_eq]
    exact hmatch

/-- A table is found by name among the definitions as it is among the tables. -/
theorem find_allTables (h : s.WellFormed) (t : String) :
    s.allTables.find? (fun d => d.name = t) = (OrdMap.find t s.tables).map TableImage.def_ := by
  have hnamed : ∀ e ∈ s.tables, e.2.def_.name = e.1 := by
    intro e he
    exact (h.tables e.1 e.2 ((OrdMap.find_eq_some_iff h.sorted).2 he)).named
  rw [CatState.allTables]
  generalize s.tables = l at hnamed ⊢
  induction l with
  | nil => rfl
  | cons e l ih =>
    obtain ⟨u, image⟩ := e
    have hu : image.def_.name = u := hnamed (u, image) (by simp)
    have ih := ih (fun e he => hnamed e (List.mem_cons_of_mem _ he))
    by_cases ht : u = t
    · simp [OrdMap.find, hu, ht]
    · simp [OrdMap.find, hu, ht, ih]

theorem mem_allTables (h : s.WellFormed) {d : TableDef} (hd : d ∈ s.allTables) :
    ∃ image, OrdMap.find d.name s.tables = some image ∧ image.def_ = d := by
  obtain ⟨e, he, rfl⟩ := List.mem_map.1 hd
  have hfind := (OrdMap.find_eq_some_iff h.sorted).2 he
  have hname := (h.tables e.1 e.2 hfind).named
  exact ⟨e.2, by rw [hname]; exact hfind, rfl⟩

end CatState.WellFormed

/-! ## Definition jobs keep it -/

section Definitions

variable {s s' : CatState} {table : String}

/-- The parent of a foreign key is the table itself or a stored one. -/
theorem fkParent_eq_ok {d parent : TableDef} {fk : ForeignKey}
    (h : fkParent s d fk = .ok parent) :
    (fk.parent = d.name ∧ parent = d) ∨
      ∃ image, OrdMap.find fk.parent s.tables = some image ∧ image.def_ = parent := by
  rw [fkParent] at h
  split at h
  · next hself =>
    cases h
    exact .inl ⟨hself, rfl⟩
  · rw [okOr_eq_ok, Option.map_eq_some_iff] at h
    exact .inr h

/-- A foreign key that validates refers to a key of its parent and does not cascade into its own. -/
theorem validateFks_eq_ok {d : TableDef} (h : validateFks s d = .ok ()) {fk : ForeignKey}
    (hfk : fk ∈ d.foreignKeys) :
    (fk.onUpdate = .cascade → ∀ name ∈ fk.columns, name ∉ d.pk) ∧
      ∃ parent, fkParent s d fk = .ok parent ∧ parent.isKey fk.parentColumns = true ∧
        ∀ c ∈ fk.columns.zip fk.parentColumns, kindsMatch d parent c = true := by
  have h := Result.forM_eq_ok.1 h fk hfk
  obtain ⟨⟨⟩, hcascade, h⟩ := Result.bind_eq_ok.1 h
  obtain ⟨parent, hparent, h⟩ := Result.bind_eq_ok.1 h
  obtain ⟨⟨⟩, hkey, hkinds⟩ := Result.bind_eq_ok.1 h
  rw [require_eq_ok] at hcascade hkey hkinds
  refine ⟨?_, parent, hparent, hkey, List.all_eq_true.1 hkinds⟩
  intro hupdate name hname hpk
  have hany : fk.columns.any d.pk.contains = true := by
    rw [List.any_eq_true]
    exact ⟨name, hname, by simpa using hpk⟩
  simp [hupdate, hany] at hcascade

theorem find_emptyIndexes {indexes : List IndexDef} {idx : IndexDef} (h : idx ∈ indexes) :
    OrdMap.find idx.name (emptyIndexes indexes) = some [] := by
  have hfold : ∀ trees : List (String × TreeContents),
      (OrdMap.find idx.name trees = some [] ∨ idx ∈ indexes) →
      OrdMap.find idx.name
        (indexes.foldl (fun trees idx => OrdMap.insert idx.name [] trees) trees) = some [] := by
    clear h
    induction indexes with
    | nil =>
      intro trees h
      simpa using h
    | cons i indexes ih =>
      intro trees h
      apply ih
      rw [OrdMap.find_insert]
      split
      · exact .inl rfl
      · next hne =>
        rcases h with h | h
        · exact .inl h
        · rcases List.mem_cons.1 h with rfl | h
          · exact absurd rfl hne
          · exact .inr h
  exact hfold [] (.inr h)

/-- A table that is created is well formed. -/
theorem createTable_wellFormed {def_ : TableDef} (hs : s.WellFormed)
    (h : createTable s def_ = .ok s') : s'.WellFormed := by
  obtain ⟨hvalid, hfks, hfresh, htables⟩ := createTable_eq_ok h
  generalize def_.materializeImplicitIndexes = d at hvalid hfks hfresh htables
  have hfind : ∀ t, OrdMap.find t s'.tables =
      if d.name = t then some ⟨d, [], emptyIndexes d.indexes⟩ else OrdMap.find t s.tables := by
    intro t
    rw [htables, OrdMap.find_insert]
  -- a parent of the state before is not the new table
  have hold : ∀ d' : TableDef, ∀ fk : ForeignKey, fk.Typed s d' → fk.Typed s' d' := by
    intro d' fk hfk
    obtain ⟨parent, hparent, hmatch⟩ := hfk
    refine ⟨parent, ?_, hmatch⟩
    rw [hfind, if_neg]
    · exact hparent
    · intro heq
      rw [← heq, hfresh] at hparent
      cases hparent
  constructor
  · rw [htables]
    exact hs.sorted.insert
  · intro t image himage
    rw [hfind] at himage
    split at himage
    · next ht =>
      cases himage
      refine ⟨ht, TableDef.validate_eq_ok hvalid, ?_, ?_⟩
      · intro idx hidx
        rw [find_emptyIndexes hidx]
        rfl
      · intro fk hfk
        exact (validateFks_eq_ok hfks hfk).1
    · exact hs.tables t image himage
  · intro t image himage fk hfk
    rw [hfind] at himage
    split at himage
    · next ht =>
      cases himage
      obtain ⟨-, parent, hparent, -, hkinds⟩ := validateFks_eq_ok hfks hfk
      rcases fkParent_eq_ok hparent with ⟨hself, hd⟩ | ⟨image, himage, rfl⟩
      · rw [hd] at hkinds
        refine ⟨⟨d, [], emptyIndexes d.indexes⟩, ?_, hkinds⟩
        rw [hfind, if_pos hself.symm]
      · exact hold _ fk ⟨image, himage, hkinds⟩
    · exact hold _ fk (hs.typed t image himage fk hfk)

/-- A table nothing refers to is no parent. -/
theorem parent_ne_of_referencing (hs : s.WellFormed) (h : referencing s table = [])
    {t : String} {image : TableImage} (himage : OrdMap.find t s.tables = some image)
    (ht : t ≠ table) {fk : ForeignKey} (hfk : fk ∈ image.def_.foreignKeys) :
    fk.parent ≠ table := by
  intro hparent
  have hmem : image.def_ ∈ s.allTables :=
    List.mem_map.2 ⟨(t, image), OrdMap.mem_of_find himage, rfl⟩
  rw [referencing, List.flatMap_eq_nil_iff] at h
  have h := h image.def_ (by simpa [hmem, (hs.tables t image himage).named] using ht)
  rw [List.map_eq_nil_iff, List.filter_eq_nil_iff] at h
  exact h fk hfk (by simpa using hparent)

/-- Dropping a table leaves the others well formed. -/
theorem dropTable_wellFormed (hs : s.WellFormed) (h : dropTable s table = .ok s') :
    s'.WellFormed := by
  obtain ⟨hfree, htables⟩ := dropTable_eq_ok h
  have hfind : ∀ t image, OrdMap.find t s'.tables = some image →
      t ≠ table ∧ OrdMap.find t s.tables = some image := by
    intro t image himage
    rw [htables, OrdMap.find_erase] at himage
    split at himage
    · cases himage
    · next hne => exact ⟨fun he => hne he.symm, himage⟩
  constructor
  · rw [htables]
    exact hs.sorted.erase
  · intro t image himage
    exact hs.tables t image (hfind t image himage).2
  · intro t image himage fk hfk
    obtain ⟨ht, himage⟩ := hfind t image himage
    obtain ⟨parent, hparent, hmatch⟩ := hs.typed t image himage fk hfk
    have hne := parent_ne_of_referencing hs hfree himage ht hfk
    refine ⟨parent, ?_, hmatch⟩
    rw [htables, OrdMap.find_erase, if_neg (fun he => hne he.symm)]
    exact hparent

/-- The backfills an added column brings are those of its indexes. -/
theorem computeBackfills_map_fst {d : TableDef} {data : TreeContents} {idxs : List IndexDef}
    {backfills : List (IndexDef × List Entry)}
    (h : computeBackfills d data idxs = .ok backfills) : backfills.map Prod.fst = idxs := by
  induction idxs generalizing backfills with
  | nil =>
    cases h
    rfl
  | cons idx idxs ih =>
    obtain ⟨entries, -, h⟩ := Result.bind_eq_ok.1 h
    obtain ⟨rest, hrest, h⟩ := Result.bind_eq_ok.1 h
    cases h
    rw [List.map_cons, ih hrest]

/-- Applied backfills add trees and change nothing else. -/
theorem applyBackfills_eq_ok {a b : TableImage} {backfills : List (IndexDef × List Entry)}
    (h : backfills.foldlM (fun image b => applyBackfill image b.1 b.2) a = .ok b) :
    b.def_ = a.def_ ∧ b.data = a.data ∧
      (∀ i, (OrdMap.find i a.indexes).isSome → (OrdMap.find i b.indexes).isSome) ∧
      ∀ idx ∈ backfills.map Prod.fst, (OrdMap.find idx.name b.indexes).isSome := by
  induction backfills generalizing a with
  | nil =>
    cases h
    exact ⟨rfl, rfl, fun _ h => h, fun _ h => absurd h List.not_mem_nil⟩
  | cons bf backfills ih =>
    rw [List.foldlM_cons] at h
    obtain ⟨c, hc, h⟩ := Result.bind_eq_ok.1 h
    obtain ⟨tree, -, hc⟩ := Result.bind_eq_ok.1 hc
    obtain ⟨_, -, hc⟩ := Result.bind_eq_ok.1 hc
    cases hc
    obtain ⟨hdef, hdata, hold, hnew⟩ := ih h
    refine ⟨hdef, hdata, ?_, ?_⟩
    · intro i hi
      apply hold
      show (OrdMap.find i (OrdMap.insert bf.1.name tree a.indexes)).isSome
      rw [OrdMap.find_insert]
      split
      · rfl
      · exact hi
    · intro idx hidx
      rcases List.mem_cons.1 hidx with rfl | hidx
      · apply hold
        show (OrdMap.find bf.1.name (OrdMap.insert bf.1.name tree a.indexes)).isSome
        rw [OrdMap.find_insert, if_pos rfl]
        rfl
      · exact hnew idx hidx

/-- A table stays well formed under a new column. -/
theorem addColumn_wellFormed {column : ColumnDef} (hs : s.WellFormed)
    (h : addColumn s table column = .ok s') : s'.WellFormed := by
  obtain ⟨image, backfills, image', himage, -, -, hvalid, hfills, hfold, rfl⟩ := addColumn_eq_ok h
  obtain ⟨hdef, -, hold, hnew⟩ := applyBackfills_eq_ok hfold
  have hw := hs.tables table image himage
  have hmap := computeBackfills_map_fst hfills
  apply hs.store himage
  · constructor
    · rw [hdef]
      exact hw.named
    · rw [hdef]
      exact TableDef.validate_eq_ok hvalid
    · intro idx hidx
      rw [hdef] at hidx
      rcases List.mem_append.1 hidx with hidx | hidx
      · exact hold _ (hw.trees idx hidx)
      · exact hnew idx (by rw [hmap]; exact hidx)
    · rw [hdef]
      exact hw.cascades
  · rw [hdef]
    rfl
  · intro name kind hkind
    rw [hdef]
    have hcols : (image.def_.widen column).materializeImplicitIndexes.columns =
        image.def_.columns ++ [column] := rfl
    exact TableDef.kindOf_append hcols hkind

/-- A table stays well formed under a new index. -/
theorem createIndex_wellFormed {index : IndexDef} (hs : s.WellFormed)
    (h : createIndex s table index = .ok s') : s'.WellFormed := by
  obtain ⟨image, entries, tree, himage, -, hvalid, -, -, rfl⟩ := createIndex_eq_ok h
  have hw := hs.tables table image himage
  refine hs.store himage ⟨hw.named, TableDef.validate_eq_ok hvalid, ?_, hw.cascades⟩ rfl
    (fun _ _ hkind => hkind)
  intro idx hidx
  show (OrdMap.find idx.name (OrdMap.insert index.name tree image.indexes)).isSome
  rw [OrdMap.find_insert]
  split
  · rfl
  · next hne =>
    rcases List.mem_append.1 hidx with hidx | hidx
    · exact hw.trees idx hidx
    · rw [List.mem_singleton.1 hidx] at hne
      exact absurd rfl hne

/-- The indexes that stay when one is dropped have other names. -/
theorem name_ne_of_mem_eraseIdx {d : TableDef} (hd : d.WellFormed) {index : String} {pos : Nat}
    (hpos : d.indexPos index = some pos) {idx : IndexDef}
    (hidx : idx ∈ d.indexes.eraseIdx pos) : idx.name ≠ index := by
  rw [TableDef.indexPos, List.findIdx?_eq_some_iff_getElem] at hpos
  obtain ⟨hlt, hname, -⟩ := hpos
  rw [List.mem_eraseIdx_iff_getElem] at hidx
  obtain ⟨j, hj, hne, rfl⟩ := hidx
  have hp := List.pairwise_iff_getElem.1 hd.indexNames
  have hname : d.indexes[pos].name = index := by simpa using hname
  rw [← hname]
  rcases Nat.lt_or_gt_of_ne hne with hlt' | hgt
  · exact hp j pos hj hlt hlt'
  · exact fun he => hp pos j hlt hj hgt he.symm

/-- A table stays well formed without one of its indexes. -/
theorem dropIndex_wellFormed {index : String} (hs : s.WellFormed)
    (h : dropIndex s table index = .ok s') : s'.WellFormed := by
  obtain ⟨image, pos, himage, hpos, -, rfl⟩ := dropIndex_eq_ok h
  have hw := hs.tables table image himage
  refine hs.store himage ⟨hw.named, hw.def_.eraseIndex pos, ?_, hw.cascades⟩ rfl
    (fun _ _ hkind => hkind)
  intro idx hidx
  have hne := name_ne_of_mem_eraseIdx hw.def_ hpos hidx
  show (OrdMap.find idx.name (OrdMap.erase index image.indexes)).isSome
  rw [OrdMap.find_erase, if_neg (fun he => hne he.symm)]
  exact hw.trees idx ((List.eraseIdx_sublist _ _).subset hidx)

end Definitions

/-- Every job keeps the schema well formed. -/
theorem wellFormed_kept {C : JobCond} : Keeps C CatState.WellFormed := by
  intro envs fuel s op out s' _ _ h hs
  by_cases hop : op.isDefinition = false
  · exact hs.edited (apply_edited hop h)
  · cases op with
    | createTable def_ =>
      obtain ⟨s₁, h, hout⟩ := Result.bind_eq_ok.1 h
      cases hout
      exact createTable_wellFormed hs h
    | dropTable table =>
      obtain ⟨s₁, h, hout⟩ := Result.bind_eq_ok.1 h
      cases hout
      exact dropTable_wellFormed hs h
    | addColumn table column =>
      obtain ⟨s₁, h, hout⟩ := Result.bind_eq_ok.1 h
      cases hout
      exact addColumn_wellFormed hs h
    | createIndex table index =>
      obtain ⟨s₁, h, hout⟩ := Result.bind_eq_ok.1 h
      cases hout
      exact createIndex_wellFormed hs h
    | dropIndex table index =>
      obtain ⟨s₁, h, hout⟩ := Result.bind_eq_ok.1 h
      cases hout
      exact dropIndex_wellFormed hs h
    | _ => exact absurd rfl hop

/-! ## Referenced keys -/

/-- The parent columns of every foreign key are a key of the parent. -/
def CatState.Keyed (s : CatState) : Prop :=
  ∀ t image fk parent, OrdMap.find t s.tables = some image → fk ∈ image.def_.foreignKeys →
    OrdMap.find fk.parent s.tables = some parent → parent.def_.isKey fk.parentColumns = true

/-- Columns are a key of a definition without one of its indexes. -/
def TableDef.IsKeyWithout (d : TableDef) (index : String) (columns : List String) : Prop :=
  d.pk = columns ∨ ∃ idx ∈ d.indexes, idx.name ≠ index ∧ idx.unique = true ∧ idx.columns = columns

instance (d : TableDef) (index : String) (columns : List String) :
    Decidable (d.IsKeyWithout index columns) :=
  inferInstanceAs (Decidable (_ ∨ _))

/-- A dropped index is not the only key a foreign key refers to. -/
def KeepsReferencedKeys : JobCond := fun _ _ s op =>
  ∀ table index, op = .dropIndex table index →
    ∀ t image fk parent, OrdMap.find t s.tables = some image → fk ∈ image.def_.foreignKeys →
      fk.parent = table → OrdMap.find table s.tables = some parent →
      parent.def_.IsKeyWithout index fk.parentColumns

theorem TableDef.isKey_iff {d : TableDef} {columns : List String} :
    d.isKey columns = true ↔
      d.pk = columns ∨ ∃ idx ∈ d.indexes, idx.unique = true ∧ idx.columns = columns := by
  simp [TableDef.isKey]

/-- A key stays one when indexes are only added. -/
theorem TableDef.isKey_mono {d d' : TableDef} {columns : List String} (hpk : d'.pk = d.pk)
    (hidx : d.indexes ⊆ d'.indexes) (h : d.isKey columns = true) : d'.isKey columns = true := by
  rw [TableDef.isKey_iff] at h ⊢
  rcases h with h | ⟨idx, hmem, hu⟩
  · exact .inl (hpk.trans h)
  · exact .inr ⟨idx, hidx hmem, hu⟩

namespace CatState.Keyed

variable {s s' : CatState}

/-- A table's image is replaced; what referred to it still refers to a key. -/
theorem store {t : String} {a b : TableImage} (h : s.Keyed)
    (ha : OrdMap.find t s.tables = some a) (hfks : b.def_.foreignKeys = a.def_.foreignKeys)
    (hkey : ∀ u image fk, OrdMap.find u s.tables = some image → fk ∈ image.def_.foreignKeys →
      fk.parent = t → b.def_.isKey fk.parentColumns = true) : (s.store t b).Keyed := by
  intro u image fk parent himage hfk hparent
  have himage := (OrdMap.find_insert _ _ _ _).symm.trans himage
  have hparent := (OrdMap.find_insert _ _ _ _).symm.trans hparent
  -- the foreign key is one the state before had
  obtain ⟨image', himage', hfk'⟩ : ∃ image', OrdMap.find u s.tables = some image' ∧
      fk ∈ image'.def_.foreignKeys := by
    split at himage
    · next hu =>
      cases himage
      exact ⟨a, hu ▸ ha, hfks ▸ hfk⟩
    · exact ⟨image, himage, hfk⟩
  split at hparent
  · next ht =>
    cases hparent
    exact hkey u image' fk himage' hfk' ht.symm
  · exact h u image' fk parent himage' hfk' hparent

/-- What refers to a table still refers to a key when indexes are only added to it. -/
theorem store_mono {t : String} {a b : TableImage} (h : s.Keyed)
    (ha : OrdMap.find t s.tables = some a) (hfks : b.def_.foreignKeys = a.def_.foreignKeys)
    (hpk : b.def_.pk = a.def_.pk) (hidx : a.def_.indexes ⊆ b.def_.indexes) :
    (s.store t b).Keyed := by
  apply h.store ha hfks
  intro u image fk himage hfk hparent
  exact TableDef.isKey_mono hpk hidx (h u image fk a himage hfk (hparent ▸ ha))

theorem edited {P : RowProp} (h : s.Keyed) (hs : s.Edited P s') : s'.Keyed := by
  intro t image fk parent himage hfk hparent
  obtain ⟨a, ha, hab⟩ := hs.back himage
  obtain ⟨p, hp, hpp⟩ := hs.back hparent
  rw [hpp.def_eq]
  rw [hab.def_eq] at hfk
  exact h t a fk p ha hfk hp

end CatState.Keyed

/-- A new table refers to keys of its parents. -/
theorem createTable_keyed {s s' : CatState} {def_ : TableDef} (hs : s.WellFormed) (hk : s.Keyed)
    (h : createTable s def_ = .ok s') : s'.Keyed := by
  obtain ⟨-, hfks, hfresh, htables⟩ := createTable_eq_ok h
  generalize def_.materializeImplicitIndexes = d at hfks hfresh htables
  intro t image fk parent himage hfk hparent
  rw [htables, OrdMap.find_insert] at himage hparent
  split at himage
  · cases himage
    obtain ⟨-, parent', hp, hkey, -⟩ := validateFks_eq_ok hfks hfk
    rcases fkParent_eq_ok hp with ⟨hself, rfl⟩ | ⟨image', himage', rfl⟩
    · rw [if_pos hself.symm] at hparent
      cases hparent
      exact hkey
    · split at hparent
      · next heq =>
        rw [← heq, hfresh] at himage'
        cases himage'
      · cases himage'.symm.trans hparent
        exact hkey
  · split at hparent
    · next heq =>
      obtain ⟨parent', hp, -⟩ := hs.typed t image himage fk hfk
      rw [← heq, hfresh] at hp
      cases hp
    · exact hk t image fk parent himage hfk hparent

/-- A table is only dropped when no other refers to it. -/
theorem dropTable_keyed {s s' : CatState} {table : String} (hk : s.Keyed)
    (h : dropTable s table = .ok s') : s'.Keyed := by
  obtain ⟨-, htables⟩ := dropTable_eq_ok h
  have hfind : ∀ t image, OrdMap.find t s'.tables = some image →
      OrdMap.find t s.tables = some image := by
    intro t image himage
    rw [htables, OrdMap.find_erase] at himage
    split at himage
    · cases himage
    · exact himage
  intro t image fk parent himage hfk hparent
  exact hk t image fk parent (hfind t image himage) hfk (hfind _ _ hparent)

/-- An index is dropped without a key being lost, if every key referred to has another. -/
theorem dropIndex_keyed {s s' : CatState} {table index : String} {env : Env} {fuel : Nat}
    (hk : s.Keyed)
    (hC : KeepsReferencedKeys env fuel s (.dropIndex table index))
    (h : dropIndex s table index = .ok s') : s'.Keyed := by
  obtain ⟨image, pos, himage, hpos, -, rfl⟩ := dropIndex_eq_ok h
  refine hk.store himage rfl ?_
  intro u child fk hchild hfk hparent
  rw [TableDef.isKey_iff]
  rcases hC table index rfl u child fk image hchild hfk hparent himage with hpk | hidx
  · exact .inl hpk
  · obtain ⟨idx, hmem, hne, hunique, hcols⟩ := hidx
    refine .inr ⟨idx, ?_, hunique, hcols⟩
    rw [TableDef.indexPos, List.findIdx?_eq_some_iff_getElem] at hpos
    obtain ⟨hlt, hname, -⟩ := hpos
    obtain ⟨j, hj, rfl⟩ := List.getElem_of_mem hmem
    refine List.mem_eraseIdx_iff_getElem.2 ⟨j, hj, ?_, rfl⟩
    rintro rfl
    exact hne (by simpa using hname)

/-- Every job that keeps the referenced keys keeps them keys. -/
theorem keyed_kept : Keeps KeepsReferencedKeys (fun s => s.WellFormed ∧ s.Keyed) := by
  intro envs fuel s op out s' hb hC h hs
  refine ⟨wellFormed_kept envs fuel s op out s' hb hC h hs.1, ?_⟩
  obtain ⟨hs, hk⟩ := hs
  by_cases hop : op.isDefinition = false
  · exact hk.edited (apply_edited hop h)
  · cases op with
    | createTable def_ =>
      obtain ⟨s₁, h, hout⟩ := Result.bind_eq_ok.1 h
      cases hout
      exact createTable_keyed hs hk h
    | dropTable table =>
      obtain ⟨s₁, h, hout⟩ := Result.bind_eq_ok.1 h
      cases hout
      exact dropTable_keyed hk h
    | addColumn table column =>
      obtain ⟨s₁, h, hout⟩ := Result.bind_eq_ok.1 h
      cases hout
      obtain ⟨image, backfills, image', himage, -, -, -, -, hfold, rfl⟩ := addColumn_eq_ok h
      -- the implicit indexes come behind the old ones, so no key is lost
      have hdef := (applyBackfills_eq_ok hfold).1
      apply hk.store_mono himage
      · rw [hdef]
        rfl
      · rw [hdef]
        rfl
      · rw [hdef]
        exact List.subset_append_left _ _
    | createIndex table index =>
      obtain ⟨s₁, h, hout⟩ := Result.bind_eq_ok.1 h
      cases hout
      obtain ⟨image, entries, tree, himage, -, -, -, -, rfl⟩ := createIndex_eq_ok h
      exact hk.store_mono himage rfl rfl (List.subset_append_left _ _)
    | dropIndex table index =>
      obtain ⟨s₁, h, hout⟩ := Result.bind_eq_ok.1 h
      cases hout
      exact dropIndex_keyed hk hC h
    | _ => exact absurd rfl hop

/-! ## Every foreign key resolves -/

/-- The parent exists, the parent columns are one of its keys, and the kinds agree position by
position. -/
def ForeignKey.Resolves (s : CatState) (d : TableDef) (fk : ForeignKey) : Prop :=
  ∃ parent, OrdMap.find fk.parent s.tables = some parent ∧
    parent.def_.isKey fk.parentColumns = true ∧
    List.Forall₂ (fun c p => ∃ kind, d.kindOf c = some kind ∧ parent.def_.kindOf p = some kind)
      fk.columns fk.parentColumns

/-- Every foreign key of every table resolves. -/
def CatState.ForeignKeysResolve (s : CatState) : Prop :=
  ∀ t image, OrdMap.find t s.tables = some image →
    ∀ fk ∈ image.def_.foreignKeys, fk.Resolves s image.def_

theorem CatState.Keyed.resolve {s : CatState} (hs : s.WellFormed) (hk : s.Keyed) :
    s.ForeignKeysResolve := by
  intro t image himage fk hfk
  obtain ⟨parent, hparent, hmatch⟩ := hs.typed t image himage fk hfk
  refine ⟨parent, hparent, hk t image fk parent himage hfk hparent, ?_⟩
  have hlen := ((hs.tables t image himage).def_.foreignKeys fk hfk).length
  rw [List.forall₂_iff_zip]
  exact ⟨hlen, fun {c p} hc => kindsMatch_iff.1 (hmatch (c, p) hc)⟩

/-- Probing a parent that resolves fails in encoding the values or not at all. -/
theorem parentKeyExists_error {s : CatState} {d : TableDef} {fk : ForeignKey}
    (hs : s.WellFormed) (hfk : fk.Resolves s d) {vals : List Value} {e : JobError}
    (h : parentKeyExists s fk vals = .error e) : ∃ err, e = .rejected (.type err) := by
  obtain ⟨parent, hparent, hkey, -⟩ := hfk
  have hencode : ∀ {e}, rej (ofType (encodeKey vals)) = .error e →
      ∃ err, e = .rejected (.type err) := by
    intro e he
    cases hv : encodeKey vals with
    | ok key =>
      rw [hv] at he
      cases he
    | error err =>
      rw [hv] at he
      cases he
      exact ⟨err, rfl⟩
  rw [parentKeyExists, CatState.load_eq_ok.2 hparent, Result.ok_bind] at h
  split at h
  · rcases Result.bind_eq_error.1 h with h | ⟨key, -, h⟩
    · exact hencode h
    · cases h
  · next hpk =>
    -- the referenced unique index is there, and so is its tree
    obtain ⟨idx, hidx, hu⟩ := (TableDef.isKey_iff.1 hkey).resolve_left hpk
    have hsome : (parent.def_.indexes.find?
        (fun i => i.unique && i.columns = fk.parentColumns)).isSome := by
      rw [List.find?_isSome]
      exact ⟨idx, hidx, by simpa using hu⟩
    obtain ⟨idx', hidx'⟩ := Option.isSome_iff_exists.1 hsome
    obtain ⟨tree, htree⟩ := Option.isSome_iff_exists.1
      ((hs.tables _ parent hparent).trees idx' (List.mem_of_find?_eq_some hidx'))
    rw [referencedIndex, hidx'] at h
    change (parent.indexTree idx'.name >>= _) = _ at h
    rw [TableImage.indexTree_eq_ok.2 htree, Result.ok_bind] at h
    rcases Result.bind_eq_error.1 h with h | ⟨key, -, h⟩
    · exact hencode h
    · cases h

/-- In every run that never drops an index a foreign key alone refers to, every foreign key
resolves in every state, and probing it never misses the parent or its index. -/
theorem foreign_keys_resolve {ops : List JobOp} {s : CatState}
    (h : RunWhere KeepsReferencedKeys ops s) :
    s.ForeignKeysResolve ∧ ∀ t image, OrdMap.find t s.tables = some image →
      ∀ fk ∈ image.def_.foreignKeys, ∀ vals e, parentKeyExists s fk vals = .error e →
        ∃ err, e = .rejected (.type err) := by
  have hempty : CatState.empty.Keyed := by
    intro t image fk parent himage
    cases himage
  obtain ⟨hs, hk⟩ := RunWhere.induct keyed_kept ⟨.empty, hempty⟩ h
  have hresolve := hk.resolve hs
  refine ⟨hresolve, ?_⟩
  intro t image himage fk hfk vals e he
  exact parentKeyExists_error hs (hresolve t image himage fk hfk) he

/-! ### Two tables -/

/-- A table of items with a code that a unique index of its own makes a key. -/
def itemsDef : TableDef :=
  ⟨"items", [ColumnDef.new "id" .i64, ColumnDef.new "code" .i64], ["id"], [],
    [⟨"by_code", ["code"], true⟩], []⟩

def codeFk : ForeignKey := ⟨"of_item", ["code"], "items", ["code"], .restrict, .restrict⟩

/-- A table of parts that refer to items by code. -/
def partsDef : TableDef :=
  ⟨"parts", [ColumnDef.new "id" .i64, ColumnDef.new "code" .i64], ["id"], [], [], [codeFk]⟩

/-- Whether a job drops no index that is the only key a foreign key refers to. -/
def keepsReferenced (s : CatState) : JobOp → Bool
  | .dropIndex table index => s.tables.all fun e => e.2.def_.foreignKeys.all fun fk =>
      fk.parent ≠ table || (OrdMap.find table s.tables).all fun parent =>
        parent.def_.IsKeyWithout index fk.parentColumns
  | .batch _ => false
  | _ => true

theorem keepsReferenced_sound {env : Env} {fuel : Nat} {s : CatState} {op : JobOp}
    (h : keepsReferenced s op = true) : Meets KeepsReferencedKeys (fun _ => env) fuel s op := by
  cases op with
  | dropIndex table index =>
    intro table' index' he t image fk parent himage hfk hparent hfound
    cases he
    have hfks := List.all_eq_true.1 h (t, image) (OrdMap.mem_of_find himage)
    have := List.all_eq_true.1 hfks fk hfk
    rw [hfound, Option.all_some, Bool.or_eq_true] at this
    rcases this with hne | hkey
    · exact absurd hparent (of_decide_eq_true hne)
    · exact of_decide_eq_true hkey
  | batch specs => cases h
  | _ =>
    intro table index he
    cases he

/-- The two tables, and a second index on the code that takes the place of the first. -/
def reindexed : List JobOp :=
  [.createTable itemsDef, .createTable partsDef, .createIndex "items" ⟨"of_code", ["code"], true⟩,
    .dropIndex "items" "by_code"]

/-- The foreign key resolves after one of the two keys it could refer to is dropped. -/
theorem foreign_keys_resolve_items :
    ∃ s image, RunWhere KeepsReferencedKeys reindexed s ∧
      OrdMap.find "parts" s.tables = some image ∧ codeFk.Resolves s image.def_ := by
  obtain ⟨s, hrun, htest⟩ := RunWhere.evalTested keepsReferenced tickingEnv 0 reindexed
    (fun s => (OrdMap.find "parts" s.tables).any (fun i => i.def_.foreignKeys = [codeFk]))
    (fun _ _ _ _ => keepsReferenced_sound) (by decide +kernel)
  obtain ⟨image, himage, hfks⟩ := (Option.any_eq_true _ _).1 htest
  have hmem : codeFk ∈ image.def_.foreignKeys := by
    rw [of_decide_eq_true hfks]
    exact List.mem_singleton.2 rfl
  exact ⟨s, image, hrun, himage, (foreign_keys_resolve hrun).1 "parts" image himage codeFk hmem⟩

/-- Dropping the index commits, and leaves the foreign key without the key it refers to. -/
theorem dropped_index_loses_key :
    ∃ ops s image, Run ops s ∧ ¬ s.ForeignKeysResolve ∧
      OrdMap.find "parts" s.tables = some image ∧ codeFk ∈ image.def_.foreignKeys ∧
      parentKeyExists s codeFk [.i64 1] = .error (.rejected (.invalidSchema
        "foreign key \"of_item\" lost its referenced unique index")) := by
  obtain ⟨s, hrun, htest⟩ := RunWhere.eval (C := fun _ _ _ _ => True) tickingEnv 0
    [.createTable itemsDef, .createTable partsDef, .dropIndex "items" "by_code"]
    (fun s => (OrdMap.find "parts" s.tables).any (fun i => i.def_.foreignKeys = [codeFk]) &&
      (OrdMap.find "items" s.tables).all (fun i => !i.def_.isKey ["code"]) &&
      parentKeyExists s codeFk [.i64 1] = .error (.rejected (.invalidSchema
        "foreign key \"of_item\" lost its referenced unique index")))
    (by
      intro op hop env s
      simp only [List.mem_cons, List.not_mem_nil, or_false] at hop
      rcases hop with rfl | rfl | rfl <;> trivial)
    (by decide +kernel)
  simp only [Bool.and_eq_true, decide_eq_true_eq] at htest
  obtain ⟨⟨htest, hkey⟩, hlost⟩ := htest
  obtain ⟨image, himage, hfks⟩ := (Option.any_eq_true _ _).1 htest
  have hmem : codeFk ∈ image.def_.foreignKeys := by
    rw [of_decide_eq_true hfks]
    exact List.mem_singleton.2 rfl
  refine ⟨_, s, image, hrun.run, ?_, himage, hmem, hlost⟩
  intro hresolve
  obtain ⟨parent, hparent, hparentKey, -⟩ := hresolve "parts" image himage codeFk hmem
  change OrdMap.find "items" s.tables = some parent at hparent
  change parent.def_.isKey ["code"] = true at hparentKey
  rw [hparent, Option.all_some, hparentKey] at hkey
  cases hkey

end Edb.Catalog
