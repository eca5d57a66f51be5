import Edb.Catalog.Batch
import Edb.Catalog.Unique

/-!
# Referential integrity

A foreign key none of whose columns is NULL refers to a row of its parent
(`CatState.Referential`). A statement keeps that when every reference it leaves is met, or is an
old one whose key it does not take away (`CatState.Referential.step`).
-/

namespace Edb.Catalog

open Edb.Types Edb.Lib

/-! ## Equal keys -/

theorem optEqv_some_iff {o : Option (List Value)} {vals : List Value} :
    optEqv o (some vals) = true ↔ ∃ vs, o = some vs ∧ valuesEqv vs vals = true := by
  cases o with
  | none =>
    constructor
    · intro h
      cases h
    · rintro ⟨vs, h, -⟩
      cases h
  | some vs => simp [optEqv]

/-- Values that compare alike are equal. -/
theorem valuesEqv_of_compareLex {as bs : List Value}
    (h : as.compareLex Value.logicalCmp bs = .eq) : valuesEqv as bs = true := by
  induction as generalizing bs with
  | nil =>
    cases bs with
    | nil => rfl
    | cons b bs => cases h
  | cons a as ih =>
    cases bs with
    | nil => cases h
    | cons b bs =>
      have hfirst : a.logicalCmp b = .eq := by
        cases hcmp : a.logicalCmp b with
        | eq => rfl
        | _ =>
          rw [Lex.compareLex_cons_of_ne (by rw [hcmp]; exact fun h => by cases h), hcmp] at h
          cases h
      rw [Lex.compareLex_cons_of_eq hfirst] at h
      rw [valuesEqv, Value.eqv, hfirst, ih h]
      rfl

/-- Keys with one encoding are equal. -/
theorem valuesEqv_of_encodeKey {as bs : List Value} {key : Bytes} (ha : encodeKey as = .ok key)
    (hb : encodeKey bs = .ok key) : valuesEqv as bs = true := by
  have hka := keyable_of_encodeKey ha
  have hkb := keyable_of_encodeKey hb
  rw [encodeKey_eq hka] at ha
  rw [encodeKey_eq hkb, ← Except.ok.inj ha] at hb
  apply valuesEqv_of_compareLex
  rw [← component_embeds.compareLex_flatMap (fun v _ => component_ne_nil v) hka hkb]
  exact cmpBytes_eq.2 (Except.ok.inj hb).symm

/-- The cells of a key, when none is NULL. -/
theorem keyCells_eq_map {d : TableDef} {row : List Value} {names : List String}
    (h : ∀ v ∈ names.map (fun name => (CheckExpr.cell d row name).getD .null), v.isNull = false) :
    keyCells d row names =
      some (names.map (fun name => (CheckExpr.cell d row name).getD .null)) := by
  induction names with
  | nil => rfl
  | cons name names ih =>
    obtain ⟨hfirst, hrest⟩ := List.forall_mem_cons.1 h
    rw [keyCells, hfirst, ih hrest]
    rfl

/-- The cells of a primary key, column by column. -/
theorem pkCells_eq_map {d : TableDef} {row : List Value} (hd : d.WellFormed) :
    pkCells d row = d.pk.map (fun name => (CheckExpr.cell d row name).getD .null) := by
  have hcells : ∀ names : List String, (∀ name ∈ names, (d.colIndex name).isSome) →
      names.filterMap (fun name => (d.colIndex name).map (fun ci => row.getD ci .null)) =
        names.map (fun name => (CheckExpr.cell d row name).getD .null) := by
    intro names hnames
    induction names with
    | nil => rfl
    | cons name names ih =>
      obtain ⟨hfirst, hrest⟩ := List.forall_mem_cons.1 hnames
      obtain ⟨ci, hci⟩ := Option.isSome_iff_exists.1 hfirst
      rw [List.filterMap_cons, hci, Option.map_some, List.map_cons, ih hrest, CheckExpr.cell, hci,
        Option.bind_some, List.getD_eq_getElem?_getD]
  refine hcells d.pk (fun name hname => ?_)
  obtain ⟨col, hcol, rfl, -⟩ := hd.pk name hname
  exact Option.isSome_iff_exists.2 (TableDef.colIndex_of_mem hcol)

/-- The primary key of a row, read as the key a foreign key refers to. -/
theorem keyCells_pk {d : TableDef} {row : List Value} (hd : d.WellFormed)
    (h : ∀ v ∈ pkCells d row, v.isNull = false) : keyCells d row d.pk = some (pkCells d row) := by
  rw [pkCells_eq_map hd] at h ⊢
  exact keyCells_eq_map h

/-! ## References -/

/-- The parent of a foreign key has a row with these key values. -/
def CatState.HasKey (s : CatState) (fk : ForeignKey) (vals : List Value) : Prop :=
  ∃ parent k row, OrdMap.find fk.parent s.tables = some parent ∧ parent.rows k = some row ∧
    optEqv (parentKeyOf parent.def_ fk row) (some vals) = true

/-- Every row all of whose columns in a foreign key are set refers to a row of the parent. -/
def CatState.Referential (s : CatState) : Prop :=
  ∀ t image, OrdMap.find t s.tables = some image → ∀ fk ∈ image.def_.foreignKeys,
    ∀ k row, image.rows k = some row → ∀ vals, fkValues image.def_ fk row = some vals →
      s.HasKey fk vals

theorem CatState.HasKey.congr {s : CatState} {fk : ForeignKey} {vals vals' : List Value}
    (h : s.HasKey fk vals) (heq : valuesEqv vals vals' = true) : s.HasKey fk vals' := by
  obtain ⟨parent, k, row, hparent, hrow, hkey⟩ := h
  obtain ⟨vs, hvs, hkey⟩ := optEqv_some_iff.1 hkey
  exact ⟨parent, k, row, hparent, hrow, optEqv_some_iff.2 ⟨vs, hvs, valuesEqv_trans hkey heq⟩⟩

/-- A statement keeps references. `Lost` are the keys it takes away. -/
theorem CatState.Referential.step {s s' : CatState} (h : s.Referential)
    (Lost : ForeignKey → List Value → Prop) (hsame : s.SameDefs s')
    (hkeys : ∀ t a, OrdMap.find t s.tables = some a → ∀ fk ∈ a.def_.foreignKeys, ∀ vals,
      s.HasKey fk vals → s'.HasKey fk vals ∨ Lost fk vals)
    (hrows : ∀ t a b, OrdMap.find t s.tables = some a → OrdMap.find t s'.tables = some b →
      ∀ fk ∈ a.def_.foreignKeys, ∀ k row vals, b.rows k = some row →
        fkValues a.def_ fk row = some vals → s'.HasKey fk vals ∨
          ∃ old, a.rows k = some old ∧ optEqv (fkValues a.def_ fk old) (some vals) = true ∧
            ¬ Lost fk vals) : s'.Referential := by
  intro t b hb fk hfk k row hrow vals hvals
  have hdef := hsame t
  rw [hb, Option.map_some] at hdef
  obtain ⟨a, ha, hdef⟩ := Option.map_eq_some_iff.1 hdef.symm
  rw [← hdef] at hfk hvals
  rcases hrows t a b ha hb fk hfk k row vals hrow hvals with hmet | ⟨old, hold, hrefers, hkept⟩
  · exact hmet
  · obtain ⟨vs, hvs, heq⟩ := optEqv_some_iff.1 hrefers
    have hkey := (h t a ha fk hfk k old hold vs hvs).congr heq
    exact (hkeys t a ha fk hfk vals hkey).resolve_right hkept

section Found

variable {s : CatState} {fk : ForeignKey} {vals : List Value}

/-- A parent that is found is a row with the key. -/
theorem hasKey_of_exists (hs : s.Sound)
    (hi : ∀ t a, OrdMap.find t s.tables = some a → a.Indexed) (hv : s.RowsValid)
    (hn : ∀ v ∈ vals, v.isNull = false) (h : parentKeyExists s fk vals = .ok true) :
    s.HasKey fk vals := by
  obtain ⟨parent, hparent, -⟩ := Result.bind_eq_ok.1 h
  have hparent := CatState.load_eq_ok.1 hparent
  have hw := hs.wellFormed.tables fk.parent parent hparent
  obtain ⟨key, hkey, ⟨hpk, hfound⟩ | ⟨-, idx, tree, hidx, htree, hfound⟩⟩ :=
    (parentKeyExists_eq_true hparent).1 h
  · obtain ⟨bytes, hbytes⟩ := Option.isSome_iff_exists.1 hfound
    obtain ⟨row, hdec, hvalid⟩ := hv fk.parent parent hparent _ (OrdMap.mem_of_find hbytes)
    -- found by primary key: the row stored there has it
    have hrow : parent.rows key = some row := by
      rw [TableImage.rows, hbytes, Option.bind_some, hdec]
      rfl
    have heq := valuesEqv_of_encodeKey hvalid.key hkey
    refine ⟨parent, key, row, hparent, hrow, optEqv_some_iff.2 ⟨pkCells parent.def_ row, ?_, heq⟩⟩
    rw [parentKeyOf, ← hpk]
    exact keyCells_pk hw.def_ (none_null_of_eqv heq hn)
  -- found in a unique index: its entry is that of a stored row
  · obtain ⟨hmem, hu⟩ := referencedIndex_eq_ok hidx
    obtain ⟨v, hv'⟩ := Option.isSome_iff_exists.1 hfound
    obtain ⟨tree', htree', hinv⟩ := (hi fk.parent parent hparent).trees idx hmem
    cases htree.symm.trans htree'
    obtain ⟨row, hrow, hentry⟩ := indexKey_eq_some.1 ((hinv.find_iff key v).1 hv')
    have hcols : idx.columns = fk.parentColumns := by
      have hcond := List.find?_some (okOr_eq_ok.1 hidx)
      rw [Bool.and_eq_true, decide_eq_true_iff] at hcond
      exact hcond.2
    rw [entryFor, rej_eq_ok, ofType_eq_ok, hu] at hentry
    obtain ⟨hkeyable, hbytes⟩ := entry_eq_some hentry
    have hencode : encodeKey (indexCols parent.def_ idx row) = .ok key := by
      rw [encodeKey_eq hkeyable]
      exact congrArg Except.ok (hbytes.trans (List.append_nil _)).symm
    have heq := valuesEqv_of_encodeKey hencode hkey
    refine ⟨parent, v, row, hparent, hrow, optEqv_some_iff.2 ⟨_, ?_, heq⟩⟩
    rw [parentKeyOf, ← hcols]
    exact keyCells_eq_map (none_null_of_eqv heq hn)

/-- A row that refers to a key is held by an index that does not miss it, and the key encodes. -/
theorem entry_of_referring {d : TableDef} {idx : IndexDef} {row : List Value} {k : Bytes}
    {e : Option Entry} (hcols : fk.columns.isPrefixOf idx.columns = true)
    (hrefers : optEqv (fkValues d fk row) (some vals) = true) (he : entryFor d idx row k = .ok e)
    (hnot : ¬ MissedBy d fk idx row) : ∀ v ∈ vals, v.Keyable := by
  obtain ⟨vs, hvs, heq⟩ := optEqv_some_iff.1 hrefers
  obtain ⟨hmap, hnulls⟩ := keyCells_eq hvs
  obtain ⟨more, hmore⟩ := List.isPrefixOf_iff_prefix.1 hcols
  have hindex : indexCols d idx row =
      vs ++ more.map (fun name => (CheckExpr.cell d row name).getD .null) := by
    rw [indexCols, ← hmore, List.map_append, hmap]
  rw [entryFor, rej_eq_ok, ofType_eq_ok, entry] at he
  split at he
  · next hnull =>
    rw [Bool.and_eq_true, List.any_eq_true, hindex] at hnull
    obtain ⟨hu, v, hv, hvnull⟩ := hnull
    rcases List.mem_append.1 hv with hv | hv
    · rw [hnulls v hv] at hvnull
      cases hvnull
    · obtain ⟨name, hname, rfl⟩ := List.mem_map.1 hv
      refine absurd ⟨hu, name, ?_, Value.isNull_iff.1 hvnull⟩ hnot
      rw [← hmore, List.drop_left]
      exact hname
  · obtain ⟨key, hkey, -⟩ := Result.bind_eq_ok.1 he
    have hkeyable := keyable_of_encodeKey hkey
    rw [hindex] at hkeyable
    exact (flatMap_component_congr (fun v hv => hkeyable v (List.mem_append_left _ hv))
      (valuesEqv_symm heq)).1

/-- The lookup of the children of a key finds every row that refers to it, but for rows the index
it takes misses. -/
theorem mem_scanChildren {image : TableImage} {k : Bytes} {row : List Value}
    (himage : OrdMap.find image.def_.name s.tables = some image) (hc : image.Consistent)
    (hrow : image.rows k = some row)
    (hrefers : optEqv (fkValues image.def_ fk row) (some vals) = true)
    (hnot : ∀ idx, image.def_.indexes.find? (fun i => fk.columns.isPrefixOf i.columns) = some idx →
      ¬ MissedBy image.def_ fk idx row) :
    ∃ rows, scanChildren s image.def_ fk vals = .ok rows ∧ (k, row) ∈ rows := by
  have hload : s.load image.def_.name = .ok image := CatState.load_eq_ok.2 himage
  obtain ⟨bytes, hmem, hdec⟩ := (TableImage.rows_eq_some hc.sorted).1 hrow
  rw [scanChildren, hload, Result.ok_bind]
  cases hidx : image.def_.indexes.find? (fun i => fk.columns.isPrefixOf i.columns) with
  | none =>
    obtain ⟨rows, hrows⟩ := keepReferring_total fk vals hc.reads
    exact ⟨rows, hrows, (mem_keepReferring hrows).2 ⟨bytes, hmem, hdec, hrefers⟩⟩
  | some idx =>
    have hcols := List.find?_some (p := fun i : IndexDef => fk.columns.isPrefixOf i.columns) hidx
    obtain ⟨tree, htree, -, hholds⟩ := hc.indexes idx (List.mem_of_find?_eq_some hidx)
    obtain ⟨e, he⟩ : ∃ e, entryFor image.def_ idx row k = .ok e := by
      obtain ⟨es, hes, -⟩ := hholds
      exact rowEntries_total hes hmem hdec
    have hkeyable := entry_of_referring hcols hrefers he (hnot idx hidx)
    have hentry :=
      (entry_in_bounds_iff hc hcols hkeyable hholds hmem hdec hrefers).2 (hnot idx hidx)
    have hin := (mem_resolveEntries hc.sorted).2 ⟨hmem, hentry⟩
    obtain ⟨rows, hrows⟩ := keepReferring_total fk vals (fun e he =>
      hc.reads e ((mem_resolveEntries hc.sorted).1 he).1)
    refine ⟨rows, ?_, (mem_keepReferring hrows).2 ⟨bytes, hin, hdec, hrefers⟩⟩
    show (image.indexTree idx.name >>= _) = _
    rw [TableImage.indexTree_eq_ok.2 htree]
    show (rej (ofType (prefixBounds vals)) >>= _) = _
    rw [prefixBounds, encodeKey_eq hkeyable]
    exact hrows

end Found

/-! ## Inserts -/

section Inserts

variable {env : Env} {s s' : CatState} {table : String} {image : TableImage} {st : Staged}

/-- What the staged rows refer to: stored rows, or rows staged with them. -/
structure StagedMet (s : CatState) (image : TableImage) (st : Staged) : Prop where
  keys : ∀ r ∈ st.rows, pkKeyOf image.def_ r.row = .ok r.pkKey
  met : ∀ r ∈ st.rows, ∀ fk ∈ image.def_.foreignKeys, ∀ vals,
    fkValues image.def_ fk r.row = some vals → parentKeyExists s fk vals = .ok true ∨
      (fk.parent = image.def_.name ∧ fk.parentColumns = image.def_.pk ∧
        ∃ key, encodeKey vals = .ok key ∧ key ∈ st.pks)

/-- A row staged refers to stored rows or to rows staged before it. -/
theorem StagedMet.stage {st' : Staged} {provided : List (String × Value)}
    (hst : StagedMet s image st) (h : stageRow env s image st provided = .ok st') :
    StagedMet s image st' := by
  obtain ⟨r, hr, hrows, -⟩ := stageRow_eq_ok h
  have hpks : ∀ key ∈ st.pks, key ∈ st'.pks := by
    intro key hkey
    rw [Staged.pks, hrows, List.map_append]
    exact List.mem_append_left _ hkey
  constructor
  · rw [hrows]
    intro r' hr'
    rcases List.mem_append.1 hr' with hr' | hr'
    · exact hst.keys r' hr'
    · rw [List.mem_singleton.1 hr']
      exact hr.key
  · rw [hrows]
    intro r' hr' fk hfk vals hvals
    rcases List.mem_append.1 hr' with hr' | hr'
    · refine (hst.met r' hr' fk hfk vals hvals).imp id ?_
      rintro ⟨hself, hpk, key, hkey, hmem⟩
      exact ⟨hself, hpk, key, hkey, hpks key hmem⟩
    · rw [List.mem_singleton.1 hr'] at hvals
      refine (checkInsertFk_eq_ok.1 (Result.forM_eq_ok.1 hr.references fk hfk) vals hvals).imp id ?_
      rintro ⟨hself, hpk, key, hkey, hmem⟩
      exact ⟨hself, hpk, key, hkey, hpks key hmem⟩

/-- The values of a foreign key are not NULL. -/
theorem fkValues_not_null {d : TableDef} {fk : ForeignKey} {row vals : List Value}
    (h : fkValues d fk row = some vals) : ∀ v ∈ vals, v.isNull = false :=
  (keyCells_eq h).2

/-- An insert keeps references. -/
theorem insert_referential {input : List (List (String × Value))} {rows : List (List Value)}
    (hs : s.Sound) (hi : ∀ t a, OrdMap.find t s.tables = some a → a.Indexed) (hv : s.RowsValid)
    (hr : s.Referential) (h : insert env s table input = .ok (rows, s')) : s'.Referential := by
  obtain ⟨image, st, himage, hstaged, hapart, hsame, hwrote⟩ := insert_wrote hs h
  have hwell := hs.wellFormed.tables table image himage
  have hmet : StagedMet s image st := by
    apply Result.foldlM_invariant (I := StagedMet s image) hstaged
    · exact ⟨fun r hr => absurd hr List.not_mem_nil, fun r hr => absurd hr List.not_mem_nil⟩
    · exact fun provided _ st st' hst hstage => hst.stage hstage
  have hnodup : ((st.rows.map StagedRow.write).map RowWrite.pkKey).Nodup := by
    rw [List.map_map]
    exact hapart.keys
  -- the rows of a table are the old ones, and in the table inserted into the staged ones
  have hkept : ∀ t a k row, OrdMap.find t s.tables = some a → a.rows k = some row →
      ∃ b, OrdMap.find t s'.tables = some b ∧ b.def_ = a.def_ ∧ b.rows k = some row := by
    intro t a k row ha hrow
    obtain ⟨b, hb, hab⟩ := hwrote t a ha
    refine ⟨b, hb, hab.def_, ?_⟩
    rw [hab.rows, writeRows_of_ne, hrow]
    intro w hw heq
    rw [List.map_map, Function.comp_def, writesOn_map] at hw
    split at hw
    · next ht =>
      subst ht
      cases himage.symm.trans ha
      obtain ⟨r, hr, rfl⟩ := List.mem_map.1 hw
      rw [TableImage.rows, ← heq, show OrdMap.find r.write.pkKey image.data = none from
        (hapart.rows r hr).1] at hrow
      cases hrow
    · cases hw
  have hkeys : ∀ fk vals, s.HasKey fk vals → s'.HasKey fk vals := by
    rintro fk vals ⟨parent, k, row, hparent, hrow, hkey⟩
    obtain ⟨parent', hparent', hdef, hrow'⟩ := hkept _ parent k row hparent hrow
    exact ⟨parent', k, row, hparent', hrow', hdef ▸ hkey⟩
  refine hr.step (fun _ _ => False) hsame (fun _ _ _ fk _ vals h => .inl (hkeys fk vals h)) ?_
  intro t a b ha hb fk hfk k row vals hrow hvals
  obtain ⟨b', hb', hab⟩ := hwrote t a ha
  cases hb.symm.trans hb'
  rw [hab.rows] at hrow
  rcases rows_of_writes hrow with hold | ⟨w, hw, rfl, hnew⟩
  · exact .inr ⟨row, hold, optEqv_some_iff.2 ⟨vals, hvals, valuesEqv_refl vals⟩, id⟩
  · rw [List.map_map, Function.comp_def, writesOn_map] at hw
    split at hw
    · next ht =>
      subst ht
      cases himage.symm.trans ha
      obtain ⟨r, hmem, rfl⟩ := List.mem_map.1 hw
      cases hnew
      left
      rcases hmet.met r hmem fk hfk vals hvals with hexists | ⟨hself, hpk, key, hkey, hstaged⟩
      · exact hkeys fk vals (hasKey_of_exists hs hi hv (fkValues_not_null hvals) hexists)
      · obtain ⟨r', hr', rfl⟩ := List.mem_map.1 hstaged
        have heq := valuesEqv_of_encodeKey (ofType_eq_ok.1 (hmet.keys r' hr')) hkey
        refine ⟨b, r'.pkKey, r'.row, ?_, ?_, optEqv_some_iff.2 ⟨_, ?_, heq⟩⟩
        · rw [hself, hwell.named]
          exact hb
        · rw [hab.rows, List.map_map, Function.comp_def, writesOn_map, if_pos rfl]
          exact writeRows_of_mem hnodup (List.mem_map_of_mem hr')
        · rw [parentKeyOf, hab.def_, hpk]
          exact keyCells_pk hwell.def_ (none_null_of_eqv heq (fkValues_not_null hvals))
    · cases hw

end Inserts

/-! ## Definition jobs -/

section Definitions

variable {s s' : CatState} {op : JobOp} {t : String} {a b : TableImage}

theorem keyCells_congr {d d' : TableDef} {row row' : List Value} {names : List String}
    (h : ∀ name ∈ names, CheckExpr.cell d' row' name = CheckExpr.cell d row name) :
    keyCells d' row' names = keyCells d row names := by
  induction names with
  | nil => rfl
  | cons name names ih =>
    obtain ⟨hfirst, hrest⟩ := List.forall_mem_cons.1 h
    rw [keyCells, keyCells, hfirst, ih hrest]

/-- The columns of a key that is there are columns of the table. -/
theorem colIndex_of_keyCells {d : TableDef} {row : List Value} {names : List String}
    {vals : List Value} (h : keyCells d row names = some vals) :
    ∀ name ∈ names, (d.colIndex name).isSome := by
  intro name hname
  obtain ⟨hmap, hnulls⟩ := keyCells_eq h
  have hnull := hnulls _ (hmap ▸ List.mem_map_of_mem hname)
  cases hci : d.colIndex name with
  | none =>
    rw [CheckExpr.cell, hci] at hnull
    cases hnull
  | some ci => rfl

/-- An altered table keeps its rows, and what they hold in the columns it had. -/
theorem Altered.row (h : Altered op t a b) {k : Bytes} {row : List Value}
    (hrow : a.rows k = some row) : ∃ row', b.rows k = some row' ∧
      ∀ name, (a.def_.colIndex name).isSome →
        CheckExpr.cell b.def_ row' name = CheckExpr.cell a.def_ row name := by
  obtain ⟨bytes, hfind, hdec⟩ := Option.bind_eq_some_iff.1 hrow
  have hdec := Result.toOption_eq_some hdec
  have hread : ∀ row', decodePadded b.def_ bytes = .ok row' → b.rows k = some row' := by
    intro row' hdec'
    rw [TableImage.rows, h.data, hfind, Option.bind_some, hdec']
    rfl
  rcases h.columns with hcols | ⟨column, -, hcols, -, -⟩
  · refine ⟨row, hread row ?_, fun name _ => ?_⟩
    · rw [decodePadded, hcols]
      exact hdec
    · simp only [CheckExpr.cell, TableDef.colIndex, hcols]
  · refine ⟨_, hread _ (decodePadded_widen hcols hdec), fun name hname => ?_⟩
    obtain ⟨ci, hci⟩ := Option.isSome_iff_exists.1 hname
    exact cell_widen hcols (decodePadded_length hdec) hci _

/-- A key is still there when its row is, with the same cells. -/
theorem CatState.HasKey.map {fk : ForeignKey} {vals : List Value} (h : s.HasKey fk vals)
    (hparent : ∀ parent k row, OrdMap.find fk.parent s.tables = some parent →
      parent.rows k = some row → ∃ parent' row', OrdMap.find fk.parent s'.tables = some parent' ∧
        parent'.rows k = some row' ∧ ∀ name, (parent.def_.colIndex name).isSome →
          CheckExpr.cell parent'.def_ row' name = CheckExpr.cell parent.def_ row name) :
    s'.HasKey fk vals := by
  obtain ⟨parent, k, row, hfound, hrow, hkey⟩ := h
  obtain ⟨parent', row', hfound', hrow', hcells⟩ := hparent parent k row hfound hrow
  obtain ⟨vs, hvs, heq⟩ := optEqv_some_iff.1 hkey
  refine ⟨parent', k, row', hfound', hrow', optEqv_some_iff.2 ⟨vs, ?_, heq⟩⟩
  rw [parentKeyOf, keyCells_congr (fun name hname =>
    hcells name (colIndex_of_keyCells hvs name hname))]
  exact hvs

/-- A definition job keeps references. -/
theorem Definition.referential (hs : s.Sound) (hs' : s'.WellFormed) (hr : s.Referential)
    (h : Definition s op s') : s'.Referential := by
  cases h with
  | @create def_ d _ hd hvalid hfks hfresh htables hseqs =>
    intro t image himage fk hfk k row hrow vals hvals
    rw [htables, OrdMap.find_insert] at himage
    split at himage
    · cases himage
      cases hrow
    · refine (hr t image himage fk hfk k row hrow vals hvals).map
        (fun parent k row hparent hrow => ?_)
      refine ⟨parent, row, ?_, hrow, fun _ _ => rfl⟩
      rw [htables, OrdMap.find_insert, if_neg, hparent]
      intro heq
      rw [← heq, hfresh] at hparent
      cases hparent
  | @drop t =>
    intro u image himage fk hfk k row hrow vals hvals
    -- no table that is left refers to the one that is dropped
    obtain ⟨left, hleft, -⟩ := hs'.typed u image himage fk hfk
    have hne : t ≠ fk.parent := by
      rintro rfl
      rw [OrdMap.find_erase, if_pos rfl] at hleft
      cases hleft
    rw [OrdMap.find_erase] at himage
    split at himage
    · cases himage
    · refine (hr u image himage fk hfk k row hrow vals hvals).map
        (fun parent k row hparent hrow => ?_)
      refine ⟨parent, row, ?_, hrow, fun _ _ => rfl⟩
      rw [OrdMap.find_erase, if_neg hne, hparent]
  | @alter op t a b ha haltered =>
    -- every row is one there was, with its cells
    have hback : ∀ u c, OrdMap.find u (s.store t b).tables = some c → ∃ a',
        OrdMap.find u s.tables = some a' ∧ c.def_.foreignKeys = a'.def_.foreignKeys ∧
          ∀ k row', c.rows k = some row' → ∃ row, a'.rows k = some row := by
      intro u c hc
      have hc := (OrdMap.find_insert _ _ _ _).symm.trans hc
      split at hc
      · next hu =>
        cases hc
        refine ⟨a, hu ▸ ha, haltered.foreignKeys, fun k row' hrow' => ?_⟩
        obtain ⟨bytes, hfind, -⟩ := Option.bind_eq_some_iff.1 hrow'
        rw [haltered.data] at hfind
        obtain ⟨row, hrow⟩ := hs.readable t a ha _ (OrdMap.mem_of_find hfind)
        refine ⟨row, ?_⟩
        rw [TableImage.rows, hfind, Option.bind_some, hrow]
        rfl
      · exact ⟨c, hc, rfl, fun k row' hrow' => ⟨row', hrow'⟩⟩
    have hforth : ∀ u a' k row, OrdMap.find u s.tables = some a' → a'.rows k = some row →
        ∃ c row', OrdMap.find u (s.store t b).tables = some c ∧ c.rows k = some row' ∧
          ∀ name, (a'.def_.colIndex name).isSome →
            CheckExpr.cell c.def_ row' name = CheckExpr.cell a'.def_ row name := by
      intro u a' k row ha' hrow
      by_cases hu : t = u
      · subst hu
        cases ha.symm.trans ha'
        obtain ⟨row', hrow', hcells⟩ := haltered.row hrow
        exact ⟨b, row', (OrdMap.find_insert _ _ _ _).trans (if_pos rfl), hrow', hcells⟩
      · exact ⟨a', row, ((OrdMap.find_insert _ _ _ _).trans (if_neg hu)).trans ha', hrow,
          fun _ _ => rfl⟩
    intro u c hc fk hfk k row' hrow' vals hvals
    obtain ⟨a', ha', hfks, hrows⟩ := hback u c hc
    obtain ⟨row, hrow⟩ := hrows k row' hrow'
    obtain ⟨c', row'', hc', hrow'', hcells⟩ := hforth u a' k row ha' hrow
    cases hc.symm.trans hc'
    cases hrow'.symm.trans hrow''
    rw [hfks] at hfk
    have hcolumns := ((hs.wellFormed.tables u a' ha').def_.foreignKeys fk hfk).columns
    have hold : fkValues a'.def_ fk row = some vals := by
      rw [← hvals, fkValues, fkValues]
      exact (keyCells_congr (fun name hname => hcells name (hcolumns name hname))).symm
    exact (hr u a' ha' fk hfk k row hrow vals hold).map (fun parent k row hparent hrow =>
      hforth fk.parent parent k row hparent hrow)

end Definitions

end Edb.Catalog
