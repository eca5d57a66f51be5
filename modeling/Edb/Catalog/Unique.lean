import Edb.Catalog.Constraints
import Edb.Catalog.IndexRun
import Edb.Catalog.Version

/-!
# Uniqueness

Uniqueness is enforced through index entries alone, so it follows from indexes that are in step
with the rows: two rows with one key in a unique index are one row. A `unique` column is covered by
its implicit index, which every table keeps unless the name of that index was given to another one
before (`OwnImplicitNames`).
-/

namespace Edb.Catalog

open Edb.Types Edb.Lib

/-! ## Backing indexes -/

/-- An index is the one that backs a `unique` column. -/
def IndexDef.Backs (idx : IndexDef) (d : TableDef) (col : ColumnDef) : Prop :=
  idx.name = implicitIndexName d.name col.name → idx.unique = true ∧ idx.columns = [col.name]

/-- Every `unique` column has its backing index. -/
def TableDef.Backed (d : TableDef) : Prop :=
  ∀ col ∈ d.columns, col.unique = true → ∃ idx ∈ d.indexes,
    idx.name = implicitIndexName d.name col.name ∧ idx.unique = true ∧ idx.columns = [col.name]

/-- No definition gives the name of an implicit index to an index of another kind. -/
def OwnImplicitNames : JobCond := fun _ _ s op =>
  match op with
  | .createTable d => ∀ col ∈ d.columns, col.unique = true → ∀ idx ∈ d.indexes, idx.Backs d col
  | .addColumn table col => col.unique = true → ∀ image, OrdMap.find table s.tables = some image →
    ∀ idx ∈ image.def_.indexes, idx.Backs image.def_ col
  | _ => True

/-- The implicit indexes that are added back the columns whose names are not taken. -/
theorem TableDef.materialize_backs {d : TableDef} {col : ColumnDef} (hcol : col ∈ d.columns)
    (hu : col.unique = true) (h : ∀ idx ∈ d.indexes, idx.Backs d col) :
    ∃ idx ∈ d.materializeImplicitIndexes.indexes,
      idx.name = implicitIndexName d.name col.name ∧ idx.unique = true ∧
        idx.columns = [col.name] := by
  cases hpos : d.indexPos (implicitIndexName d.name col.name) with
  | none =>
    refine ⟨d.implicitIndex col, List.mem_append_right _ (List.mem_filter.2 ⟨?_, ?_⟩), rfl, rfl,
      rfl⟩
    · exact List.mem_map_of_mem (List.mem_filter.2 ⟨hcol, hu⟩)
    · exact Option.isNone_iff_eq_none.2 hpos
  | some pos =>
    rw [TableDef.indexPos, List.findIdx?_eq_some_iff_getElem] at hpos
    obtain ⟨hlt, hname, -⟩ := hpos
    have hname : d.indexes[pos].name = implicitIndexName d.name col.name := by simpa using hname
    have hmem : d.indexes[pos] ∈ d.indexes := List.getElem_mem hlt
    exact ⟨_, List.mem_append_left _ hmem, hname, h _ hmem hname⟩

section Backed

variable {s s' : CatState} {table : String}

/-- An index that backs a column stays when another is dropped. -/
theorem TableDef.Backed.eraseIndex {d : TableDef} {pos : Nat} (h : d.Backed)
    (hpos : d.indexes[pos]?.any d.backsUniqueColumn = false) :
    TableDef.Backed { d with indexes := d.indexes.eraseIdx pos } := by
  intro col hcol hu
  obtain ⟨idx, hidx, hname, hunique, hcols⟩ := h col hcol hu
  refine ⟨idx, ?_, hname, hunique, hcols⟩
  obtain ⟨j, hj, rfl⟩ := List.getElem_of_mem hidx
  refine List.mem_eraseIdx_iff_getElem.2 ⟨j, hj, ?_, rfl⟩
  rintro rfl
  have hbacks : d.backsUniqueColumn d.indexes[j] = true := by
    simp only [TableDef.backsUniqueColumn, hunique, hcols, hname]
    simpa using ⟨col, hcol, rfl, hu⟩
  rw [List.getElem?_eq_getElem hj, Option.any_some, hbacks] at hpos
  cases hpos

/-- Every job keeps a unique index behind each unique column, if implicit names are left to it. -/
theorem backed_kept : Keeps OwnImplicitNames (fun s => s.Sound ∧ ∀ t image,
    OrdMap.find t s.tables = some image → image.def_.Backed) := by
  intro envs fuel s op out s' hb hC h ⟨hs, hback⟩
  refine ⟨sound_kept envs fuel s op out s' hb hC h hs, ?_⟩
  -- every definition but create and drop rewrites one table: it is enough to look at that one
  have hstore : ∀ {table : String} {b : TableImage}, b.def_.Backed → ∀ t image,
      OrdMap.find t (s.store table b).tables = some image → image.def_.Backed := by
    intro table b hnew t image himage
    rw [CatState.find_store] at himage
    split at himage
    · cases himage
      exact hnew
    · exact hback t image himage
  cases hop : op.isDefinition with
  | false =>
    intro t b hb'
    obtain ⟨hsame, -⟩ := (apply_statement hop hb h).wrote hs
    have hdef := hsame t
    rw [hb', Option.map_some] at hdef
    obtain ⟨a, ha, heq⟩ := Option.map_eq_some_iff.1 hdef.symm
    exact heq ▸ hback t a ha
  | true =>
    cases op with
    | createTable def_ =>
      obtain ⟨s₁, h, hout⟩ := Result.bind_eq_ok.1 h
      cases hout
      obtain ⟨-, -, -, htables⟩ := createTable_eq_ok h
      intro t image himage
      rw [htables, OrdMap.find_insert] at himage
      split at himage
      · cases himage
        exact fun col hcol hu => TableDef.materialize_backs hcol hu (hC col hcol hu)
      · exact hback t image himage
    | dropTable table =>
      obtain ⟨s₁, h, hout⟩ := Result.bind_eq_ok.1 h
      cases hout
      exact fun t image himage => hback t image (dropTable_indexes h t image himage)
    | addColumn table column =>
      obtain ⟨s₁, h, hout⟩ := Result.bind_eq_ok.1 h
      cases hout
      obtain ⟨image, backfills, image', himage, -, -, -, -, hfold, rfl⟩ := addColumn_eq_ok h
      obtain ⟨hdef, -⟩ := applyBackfills_eq_ok hfold
      refine hstore ?_
      rw [hdef]
      intro col hcol hu
      -- an old column keeps its index, the new one gets the implicit one
      rcases List.mem_append.1 hcol with hcol | hcol
      · obtain ⟨idx, hidx, hrest⟩ := hback table image himage col hcol hu
        exact ⟨idx, List.mem_append_left _ hidx, hrest⟩
      · cases List.mem_singleton.1 hcol
        exact TableDef.materialize_backs (d := image.def_.widen column)
          (List.mem_append_right _ hcol) hu (hC hu image himage)
    | createIndex table index =>
      obtain ⟨s₁, h, hout⟩ := Result.bind_eq_ok.1 h
      cases hout
      obtain ⟨image, entries, tree, himage, -, -, -, -, rfl⟩ := createIndex_eq_ok h
      refine hstore (fun col hcol hu => ?_)
      obtain ⟨idx, hidx, hrest⟩ := hback table image himage col hcol hu
      exact ⟨idx, List.mem_append_left _ hidx, hrest⟩
    | dropIndex table index =>
      obtain ⟨s₁, h, hout⟩ := Result.bind_eq_ok.1 h
      cases hout
      obtain ⟨image, pos, himage, -, hpos, rfl⟩ := dropIndex_eq_ok h
      exact hstore ((hback table image himage).eraseIndex hpos)
    | _ => cases hop

end Backed

/-! ## Rows with one key -/

/-- No two rows of a table have one primary key, one key without NULLs in a unique index, or one
value other than NULL in a `unique` column. -/
structure TableImage.RowsUnique (image : TableImage) : Prop where
  primaryKey : ∀ k k' row row', image.rows k = some row → image.rows k' = some row' →
    valuesEqv (pkCells image.def_ row) (pkCells image.def_ row') = true → k = k'
  indexes : ∀ idx ∈ image.def_.indexes, idx.unique = true →
    ∀ k k' row row', image.rows k = some row → image.rows k' = some row' →
      (∀ v ∈ indexCols image.def_ idx row', v.isNull = false) →
      valuesEqv (indexCols image.def_ idx row) (indexCols image.def_ idx row') = true → k = k'
  columns : ∀ col ∈ image.def_.columns, col.unique = true →
    ∀ k k' row row' v v', image.rows k = some row → image.rows k' = some row' →
      CheckExpr.cell image.def_ row col.name = some v →
      CheckExpr.cell image.def_ row' col.name = some v' → v'.isNull = false →
      v.eqv v' = true → k = k'

section Rows

variable {image : TableImage} {d : TableDef} {idx : IndexDef}

/-- A value that equals one that is not NULL is not NULL. -/
theorem isNull_of_eqv {v v' : Value} (h : v.eqv v' = true) (hv' : v'.isNull = false) :
    v.isNull = false := by
  cases v with
  | null =>
    cases v' with
    | null => cases hv'
    | _ => cases h
  | _ => rfl

theorem none_null_of_eqv {vs vs' : List Value} (h : valuesEqv vs vs' = true)
    (hv' : ∀ v ∈ vs', v.isNull = false) : ∀ v ∈ vs, v.isNull = false := by
  induction vs generalizing vs' with
  | nil => exact fun v hv => absurd hv List.not_mem_nil
  | cons v vs ih =>
    cases vs' with
    | nil => cases h
    | cons v' vs' =>
      rw [valuesEqv, Bool.and_eq_true] at h
      obtain ⟨hfirst, hrest⟩ := List.forall_mem_cons.1 hv'
      exact List.forall_mem_cons.2 ⟨isNull_of_eqv h.1 hfirst, ih h.2 hrest⟩

/-- The key of a row without NULLs in a unique index. -/
theorem indexKey_unique (hu : idx.unique = true) {k : Bytes} {row : List Value} {e : Option Entry}
    (he : entryFor d idx row k = .ok e) (hn : ∀ v ∈ indexCols d idx row, v.isNull = false) :
    indexKey d idx k (some row) = some ((indexCols d idx row).flatMap component) ∧
      ∀ v ∈ indexCols d idx row, v.Keyable := by
  have hany : (indexCols d idx row).any Value.isNull = false := by
    rw [List.any_eq_false]
    exact fun v hv => by rw [hn v hv]; exact Bool.false_ne_true
  have hentry := he
  rw [entryFor, rej_eq_ok, ofType_eq_ok, entry, hu, hany] at hentry
  obtain ⟨key, hkey, h⟩ := Result.bind_eq_ok.1 hentry
  have hkeyable := keyable_of_encodeKey hkey
  rw [encodeKey_eq hkeyable] at hkey
  cases hkey
  cases h
  exact ⟨indexKey_some he, hkeyable⟩

/-- Rows that agree without NULLs on a unique index that is in step are one row. -/
theorem TableImage.Indexed.unique (h : image.Indexed) (hidx : idx ∈ image.def_.indexes)
    (hu : idx.unique = true) {k k' : Bytes} {row row' : List Value}
    (hrow : image.rows k = some row) (hrow' : image.rows k' = some row')
    (hn : ∀ v ∈ indexCols image.def_ idx row', v.isNull = false)
    (heq : valuesEqv (indexCols image.def_ idx row) (indexCols image.def_ idx row') = true) :
    k = k' := by
  obtain ⟨e, he⟩ := h.entries idx hidx k row hrow
  obtain ⟨e', he'⟩ := h.entries idx hidx k' row' hrow'
  obtain ⟨hkey, -⟩ := indexKey_unique hu he (none_null_of_eqv heq hn)
  obtain ⟨hkey', hkeyable⟩ := indexKey_unique hu he' hn
  obtain ⟨tree, -, hinv⟩ := h.trees idx hidx
  rw [(flatMap_component_congr hkeyable heq).2] at hkey
  refine hinv.inj (k := (indexCols image.def_ idx row').flatMap component) ?_ ?_
  · rw [TableImage.keys, hrow, hkey]
  · rw [TableImage.keys, hrow', hkey']

/-- The bytes a row is stored under are those of its primary key. -/
theorem same_key_of_pk {k k' : Bytes} {row row' : List Value}
    (hk : encodeKey (pkCells d row) = .ok k) (hk' : encodeKey (pkCells d row') = .ok k')
    (heq : valuesEqv (pkCells d row) (pkCells d row') = true) : k = k' := by
  have hkeyable := keyable_of_encodeKey hk'
  obtain ⟨hkeyable', hsame⟩ := flatMap_component_congr hkeyable heq
  rw [encodeKey_eq hkeyable] at hk'
  rw [encodeKey_eq hkeyable', hsame] at hk
  exact Except.ok.inj (hk.symm.trans hk')

end Rows

/-! ## Every run -/

section Runs

variable {C D : JobCond}

theorem Meets.mono (hCD : ∀ env fuel s op, C env fuel s op → D env fuel s op)
    {envs : Nat → Env} {fuel : Nat} {s : CatState} {op : JobOp} (h : Meets C envs fuel s op) :
    Meets D envs fuel s op := by
  have hspecs : ∀ specs i s, SpecsMeet C envs fuel i s specs → SpecsMeet D envs fuel i s specs := by
    intro specs
    induction specs with
    | nil => exact fun i s h => h
    | cons spec specs ih =>
      exact fun i s h => ⟨hCD _ _ _ _ h.1, fun count s' hspec => ih _ _ (h.2 count s' hspec)⟩
  cases op with
  | batch specs => exact hspecs specs 0 s h
  | _ => exact hCD _ _ _ _ h

/-- A run under a condition is one under a weaker condition. -/
theorem RunWhere.mono (hCD : ∀ env fuel s op, C env fuel s op → D env fuel s op)
    {ops : List JobOp} {s : CatState} (h : RunWhere C ops s) : RunWhere D ops s := by
  induction h with
  | nil => exact .nil
  | snoc _ hm hc ih => exact ih.snoc (hm.mono hCD) hc

/-- What runs that keep rows unique ask of their jobs. -/
abbrev KeepsUnique : JobCond := UpdatesApart.and (UpdatesUnmanagedKeys.and OwnImplicitNames)

/-- Rows under their own keys, with indexes in step and unique columns backed, are unique. -/
theorem TableImage.Indexed.rowsUnique {image : TableImage} (h : image.Indexed)
    (hsorted : OrdMap.Sorted image.data)
    (hvalid : ∀ e ∈ image.data, StoredValid image.def_ e.1 e.2) (hbacked : image.def_.Backed) :
    image.RowsUnique := by
  have hkey : ∀ k row, image.rows k = some row →
      encodeKey (pkCells image.def_ row) = .ok k := by
    intro k row hrow
    obtain ⟨bytes, hmem, hdec⟩ := (TableImage.rows_eq_some hsorted).1 hrow
    obtain ⟨row', hdec', hrv⟩ := hvalid _ hmem
    cases hdec.symm.trans hdec'
    exact hrv.key
  refine ⟨?_, ?_, ?_⟩
  · intro k k' row row' hrow hrow' heq
    exact same_key_of_pk (hkey k row hrow) (hkey k' row' hrow') heq
  · intro idx hidx hu k k' row row' hrow hrow' hn heq
    exact h.unique hidx hu hrow hrow' hn heq
  · intro col hcol hu k k' row row' v v' hrow hrow' hv hv' hn heq
    obtain ⟨idx, hidx, -, hunique, hcols⟩ := hbacked col hcol hu
    refine h.unique hidx hunique hrow hrow' ?_ ?_
    · simp [indexCols, hcols, hv', hn]
    · simp [indexCols, hcols, hv, hv', valuesEqv, heq]

theorem RunWhere.rowsUnique {ops : List JobOp} {s : CatState} (h : RunWhere KeepsUnique ops s)
    (t : String) (image : TableImage) (himage : OrdMap.find t s.tables = some image) :
    image.RowsUnique := by
  have hempty : ∀ {P : TableImage → Prop} t image,
      OrdMap.find t CatState.empty.tables = some image → P image := by
    intro P t image himage
    cases himage
  have hindexed := (h.mono (fun _ _ _ _ h => h.1)).indexed t image himage
  have hvalid := (RunWhere.induct rowsValid_kept ⟨.empty, hempty⟩
    (h.mono (fun _ _ _ _ h => h.2.1))).2 t image himage
  have hbacked := (RunWhere.induct backed_kept ⟨sound_empty, hempty⟩
    (h.mono (fun _ _ _ _ h => h.2.2))).2 t image himage
  exact hindexed.rowsUnique (h.sound.inOrder t image himage) hvalid hbacked

/-- **Uniqueness.** In every state of a run whose updates are apart and move no key the engine
manages, and whose definitions leave the implicit names alone, no two rows of a table have one
primary key, one key without NULLs in a unique index, or one value in a `unique` column. -/
theorem rows_stay_unique {ops : List JobOp} {s : CatState} (h : RunWhere KeepsUnique ops s)
    (t : String) (image : TableImage) (himage : OrdMap.find t s.tables = some image) :
    image.RowsUnique :=
  h.rowsUnique t image himage

theorem meets_unique_seated : ∀ op ∈ seated, ∀ env s,
    Meets KeepsUnique (fun _ => env) 9 s op := by
  intro op hop env s
  simp only [seated, List.mem_cons, List.not_mem_nil, or_false] at hop
  have hnames : ∀ d : TableDef, d.indexes = [] ∨ (∀ col ∈ d.columns, col.unique = false) →
      ∀ col ∈ d.columns, col.unique = true → ∀ idx ∈ d.indexes, idx.Backs d col := by
    rintro d (hnone | hnone) col hcol hu idx hidx
    · rw [hnone] at hidx
      cases hidx
    · rw [hnone col hcol] at hu
      cases hu
  rcases hop with rfl | rfl | rfl | rfl
  · exact ⟨fun _ _ _ _ _ htargets _ => htargets.elim, trivial, hnames guestsDef (by decide)⟩
  · exact ⟨fun _ _ _ _ _ htargets _ => htargets.elim, trivial, hnames coatsDef (by decide)⟩
  · exact ⟨fun _ _ _ _ _ htargets _ => htargets.elim, trivial, trivial⟩
  · exact ⟨fun _ _ _ _ _ htargets _ => htargets.elim, trivial, trivial⟩

/-- No two guests have one seat after everyone moved. -/
theorem rows_stay_unique_left : ∃ s image,
    RunWhere KeepsUnique (seated ++ [.updateWhere "guests" (shiftSeats (-1))]) s ∧
      OrdMap.find "guests" s.tables = some image ∧ image.data.length = 3 ∧ image.RowsUnique := by
  obtain ⟨s, s', out, hrun, happly, htest⟩ := RunWhere.evalThen tickingEnv 9 seated
    (.updateWhere "guests" (shiftSeats (-1))) (fun s s' =>
      updateApart (tickingEnv 4) 9 s "guests" (shiftSeats (-1)) &&
        ((OrdMap.find "guests" s.tables).all (fun i : TableImage => decide (∀ col ∈ i.def_.columns,
            col.onUpdateNow = true → col.name ∉ i.def_.pk)) &&
          (OrdMap.find "guests" s'.tables).any (fun i => i.data.length = 3))) meets_unique_seated
    (by decide +kernel)
  rw [Bool.and_eq_true, Bool.and_eq_true] at htest
  obtain ⟨hapart, hkey, htest⟩ := htest
  obtain ⟨image, himage, hlen⟩ := (Option.any_eq_true _ _).1 htest
  have hmeets : Meets KeepsUnique (fun _ => tickingEnv 4) 9 s
      (.updateWhere "guests" (shiftSeats (-1))) := by
    refine ⟨updateApart_sound hapart, fun image himage _ => ?_, trivial⟩
    rw [himage, Option.all_some] at hkey
    have hkey := of_decide_eq_true hkey
    exact hkey
  have hrun' := hrun.snoc hmeets happly
  exact ⟨s', image, hrun', himage, of_decide_eq_true hlen,
    rows_stay_unique hrun' "guests" image himage⟩

end Runs

end Edb.Catalog
