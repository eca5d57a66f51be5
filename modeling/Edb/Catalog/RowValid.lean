import Edb.Catalog.Edit
import Edb.Catalog.WellFormed

/-!
# Valid rows

What a stored row has to satisfy by the definition of its table, and that building a row,
changing a row and widening the definition keep it so.
-/

namespace Edb.Catalog

open Edb.Types Edb.Lib

/-- A value a column of a kind may hold besides NULL. -/
def CellFits (kind : TypeKind) (v : Value) : Prop :=
  v.kind = some kind ∧ ∀ doc, v = .json doc → validateJson doc = .ok ()

/-- A row has a cell for every column, each NULL or of the column's kind. -/
structure Fits (d : TableDef) (row : List Value) : Prop where
  length : row.length = d.columns.length
  cells : ∀ (ci : Nat) (col : ColumnDef) (v : Value), d.columns[ci]? = some col →
    row[ci]? = some v → v = .null ∨ CellFits col.kind v

/-- NULL stands in nullable columns only. -/
def NotNull (d : TableDef) (row : List Value) : Prop :=
  ∀ ci : Nat, row[ci]? = some .null → d.isNullable ci = true

/-- No CHECK is definitively false. -/
def ChecksHold (d : TableDef) (row : List Value) : Prop :=
  ∀ check ∈ d.checks, check.eval d row ≠ some false

/-- A row satisfies its table's constraints and belongs under a key. -/
structure RowValid (d : TableDef) (key : Bytes) (row : List Value) : Prop extends Fits d row where
  key : encodeKey (pkCells d row) = .ok key
  notNull : NotNull d row
  checks : ChecksHold d row

/-- The stored bytes read as a valid row. -/
def StoredValid : RowProp := fun d key bytes =>
  ∃ row, decodePadded d bytes = .ok row ∧ RowValid d key row

variable {d : TableDef} {row row' : List Value}

/-! ## Cells -/

/-- A cell that passes is of its column's kind, or a NULL the column allows. -/
theorem checkCellType_eq_ok {table : String} {ci : Nat} {v : Value} {col : ColumnDef}
    (h : checkCellType table d ci v = .ok ()) (hcol : d.columns[ci]? = some col) :
    (v = .null → d.isNullable ci = true) ∧ (v = .null ∨ CellFits col.kind v) := by
  unfold checkCellType at h
  rw [hcol] at h
  cases v with
  | null => exact ⟨fun _ => require_eq_ok.1 h, .inl rfl⟩
  | json doc =>
    obtain ⟨hkind, hjson⟩ := Result.guard_eq_ok.1 h
    refine ⟨(fun hv => by cases hv), .inr ⟨congrArg some (not_not.1 hkind), ?_⟩⟩
    intro doc' hdoc
    cases hdoc
    exact ofType_eq_ok.1 hjson
  | _ =>
    obtain ⟨hkind, -⟩ := Result.guard_eq_ok.1 h
    refine ⟨(fun hv => by cases hv), .inr ⟨congrArg some (not_not.1 hkind), ?_⟩⟩
    intro doc hdoc
    cases hdoc

/-- A row passes when none of the checks is false of it. -/
theorem runChecksFrom_eq_ok {checks : List CheckExpr} {index : Nat}
    (h : runChecksFrom d row index checks = .ok ()) :
    ∀ check ∈ checks, check.eval d row ≠ some false := by
  induction checks generalizing index with
  | nil =>
    intro check hcheck
    cases hcheck
  | cons c checks ih =>
    obtain ⟨hc, h⟩ := Result.guard_eq_ok.1 h
    intro check hcheck
    rcases List.mem_cons.1 hcheck with rfl | hcheck
    · exact hc
    · exact ih h check hcheck

theorem runChecks_eq_ok (h : runChecks d row = .ok ()) : ChecksHold d row :=
  runChecksFrom_eq_ok h

/-! ## The primary key of a row -/

theorem isPk_of_colIndex {name : String} {ci : Nat} (hci : d.colIndex name = some ci) :
    d.isPk ci = d.pk.contains name := by
  obtain ⟨col, hcol, rfl⟩ := TableDef.colIndex_eq_some hci
  rw [TableDef.isPk, hcol, Option.any_some]

/-- Rows that agree on the primary-key columns have the same key. -/
theorem pkCells_congr (h : ∀ ci, d.isPk ci = true → row'[ci]? = row[ci]?) :
    pkCells d row' = pkCells d row := by
  apply List.filterMap_congr
  intro name hname
  cases hci : d.colIndex name with
  | none => rfl
  | some ci =>
    have hpk : d.isPk ci = true := by
      rw [isPk_of_colIndex hci]
      simpa using hname
    simp only [Option.map_some, List.getD_eq_getElem?_getD, h ci hpk]

/-! ## Changing cells -/

theorem Fits.set {ci : Nat} {v : Value} (h : Fits d row)
    (hv : ∀ col, d.columns[ci]? = some col → v = .null ∨ CellFits col.kind v) :
    Fits d (row.set ci v) := by
  constructor
  · rw [List.length_set]
    exact h.length
  · intro cj col w hcol hw
    rw [List.getElem?_set] at hw
    split at hw
    · next heq =>
      subst heq
      split at hw
      · cases hw
        exact hv col hcol
      · cases hw
    · exact h.cells cj col w hcol hw

theorem NotNull.set {ci : Nat} {v : Value} (h : NotNull d row)
    (hv : v = .null → d.isNullable ci = true) : NotNull d (row.set ci v) := by
  intro cj hw
  rw [List.getElem?_set] at hw
  split at hw
  · next heq =>
    subst heq
    split at hw
    · cases hw
      exact hv rfl
    · cases hw
  · exact h cj hw

theorem pkCells_set {ci : Nat} {v : Value} (h : d.isPk ci = false) :
    pkCells d (row.set ci v) = pkCells d row := by
  apply pkCells_congr
  intro cj hcj
  rw [List.getElem?_set_ne]
  intro heq
  subst heq
  rw [h] at hcj
  cases hcj

/-- An absolute set list keeps a row's cells in kind and its key in place. -/
theorem applySets_eq_ok {table : String} {sets : List (String × Value)}
    (h : applySets table d row sets = .ok row') (hfits : Fits d row) (hnull : NotNull d row) :
    Fits d row' ∧ NotNull d row' ∧ pkCells d row' = pkCells d row := by
  induction sets generalizing row with
  | nil =>
    cases h
    exact ⟨hfits, hnull, rfl⟩
  | cons e sets ih =>
    obtain ⟨name, value⟩ := e
    rw [applySets] at h
    cases hci : d.colIndex name with
    | none =>
      rw [hci] at h
      cases h
    | some ci =>
      rw [hci] at h
      change (if d.isPk ci = true then _ else _) = _ at h
      obtain ⟨hpk, h⟩ := Result.guard_eq_ok.1 h
      obtain ⟨-, h⟩ := Result.guard_eq_ok.1 h
      obtain ⟨⟨⟩, hcell, h⟩ := Result.bind_eq_ok.1 h
      obtain ⟨col, hcol, -⟩ := TableDef.colIndex_eq_some hci
      obtain ⟨hvnull, hvfits⟩ := checkCellType_eq_ok hcell hcol
      have hset : ∀ col', d.columns[ci]? = some col' →
          value = .null ∨ CellFits col'.kind value := by
        intro col' hcol'
        cases hcol.symm.trans hcol'
        exact hvfits
      obtain ⟨hf, hn, hk⟩ := ih h (hfits.set hset) (hnull.set hvnull)
      exact ⟨hf, hn, hk.trans (pkCells_set (by simpa using hpk))⟩

/-- Stamping a row steps each cell by its own column. -/
theorem stepManaged_getElem? {now : Int64} {ci : Nat} {w : Value}
    (h : (stepManaged now d row)[ci]? = some w) :
    ∃ col v, d.columns[ci]? = some col ∧ row[ci]? = some v ∧ w = stepCell now col v := by
  rw [stepManaged, List.getElem?_zipWith] at h
  cases hcol : d.columns[ci]? with
  | none => simp [hcol] at h
  | some col =>
    cases hv : row[ci]? with
    | none => simp [hcol, hv] at h
    | some v =>
      simp only [hcol, hv, Option.some.injEq] at h
      exact ⟨col, v, rfl, rfl, h.symm⟩

/-- A cell as it is stepped is the old one or a value of the engine. -/
theorem stepCell_cases (now : Int64) (col : ColumnDef) (v : Value) :
    (col.onUpdateNow = true ∧ stepCell now col v = .timestamp now) ∨
      (col.rowversion = true ∧ ∃ n, stepCell now col v = .i64 n) ∨ stepCell now col v = v := by
  unfold stepCell
  by_cases hnow : col.onUpdateNow = true
  · exact .inl ⟨hnow, by simp [hnow]⟩
  · by_cases hver : col.rowversion = true
    · refine .inr (.inl ⟨hver, ?_⟩)
      cases v <;> simp [hnow, hver, nextVersion]
    · exact .inr (.inr (by simp [hnow, hver]))

/-- The engine never writes into the primary key. -/
def TableDef.KeyUnmanaged (d : TableDef) : Prop :=
  ∀ col ∈ d.columns, col.onUpdateNow = true → col.name ∉ d.pk

instance (d : TableDef) : Decidable d.KeyUnmanaged :=
  inferInstanceAs (Decidable (∀ col ∈ d.columns, _))

/-- Stepping the engine-managed columns keeps a row's cells in kind. -/
theorem stepManaged_fits (hd : d.WellFormed) (now : Int64) (hfits : Fits d row)
    (hnull : NotNull d row) :
    Fits d (stepManaged now d row) ∧ NotNull d (stepManaged now d row) := by
  refine ⟨⟨?_, ?_⟩, ?_⟩
  · rw [stepManaged, List.length_zipWith, hfits.length, Nat.min_self]
  · intro ci col w hcol hw
    obtain ⟨col', v, hcol', hv, rfl⟩ := stepManaged_getElem? hw
    cases hcol.symm.trans hcol'
    have hwf := hd.columns col (List.mem_of_getElem? hcol)
    rcases stepCell_cases now col v with ⟨hc, heq⟩ | ⟨hc, n, heq⟩ | heq
    · rw [heq, hwf.onUpdateNow hc]
      exact .inr ⟨rfl, fun doc h => by cases h⟩
    · rw [heq, hwf.rowversion hc]
      exact .inr ⟨rfl, fun doc h => by cases h⟩
    · rw [heq]
      exact hfits.cells ci col v hcol hv
  · intro ci hw
    obtain ⟨col, v, -, hv, hw⟩ := stepManaged_getElem? hw
    rcases stepCell_cases now col v with ⟨-, heq⟩ | ⟨-, n, heq⟩ | heq
    · rw [heq] at hw
      cases hw
    · rw [heq] at hw
      cases hw
    · rw [heq] at hw
      subst hw
      exact hnull ci hv

/-- Stepping leaves the key alone when the engine manages no part of it. -/
theorem stepManaged_pkCells (hd : d.WellFormed) (hkey : d.KeyUnmanaged) (now : Int64)
    (hfits : Fits d row) : pkCells d (stepManaged now d row) = pkCells d row := by
  apply pkCells_congr
  intro ci hpk
  rw [TableDef.isPk] at hpk
  obtain ⟨col, hcol, hname⟩ := (Option.any_eq_true _ _).1 hpk
  have hmem : col.name ∈ d.pk := by simpa using hname
  have hlt : ci < row.length := by
    rw [hfits.length]
    exact (List.getElem?_eq_some_iff.1 hcol).1
  have hnow : ¬ col.onUpdateNow = true := fun h => hkey col (List.mem_of_getElem? hcol) h hmem
  have hver : ¬ col.rowversion = true := by
    obtain ⟨col', hmem', hname', hver, -⟩ := hd.pk col.name hmem
    rw [← TableDef.column_unique hd.distinct hmem' (List.mem_of_getElem? hcol) hname']
    simp [hver]
  rw [stepManaged, List.getElem?_zipWith, hcol, List.getElem?_eq_getElem hlt]
  simp [stepCell, hnow, hver]

/-- A changed row is in kind; it keeps its key when the engine manages no part of it. -/
theorem transformRow_eq_ok {table : String} {now : Int64} {sets : List (String × Value)}
    (hd : d.WellFormed) (h : transformRow now table d row sets = .ok row') (hfits : Fits d row)
    (hnull : NotNull d row) :
    Fits d row' ∧ NotNull d row' ∧ (d.KeyUnmanaged → pkCells d row' = pkCells d row) := by
  obtain ⟨mid, hmid, h⟩ := Result.bind_eq_ok.1 h
  cases h
  obtain ⟨hf, hn, hk⟩ := applySets_eq_ok hmid hfits hnull
  obtain ⟨hf', hn'⟩ := stepManaged_fits hd now hf hn
  exact ⟨hf', hn', fun hkey => (stepManaged_pkCells hd hkey now hf).trans hk⟩

/-! ## Building rows -/

/-- Each cell built passed the check of its column. -/
theorem buildCells_eq_ok {env : Env} {ordinal ci : Nat} {cells : List (Option Value)}
    {cols : List ColumnDef} {seq seq' : Int64}
    (h : buildCells env ordinal d cells ci cols seq = .ok (row, seq')) :
    row.length = cols.length ∧
      ∀ j v, row[j]? = some v → checkCellType d.name d (ci + j) v = .ok () := by
  induction cols generalizing ci seq row seq' with
  | nil =>
    cases h
    refine ⟨rfl, ?_⟩
    intro j v hv
    simp at hv
  | cons col cols ih =>
    obtain ⟨⟨⟩, hcell, h⟩ := Result.bind_eq_ok.1 h
    obtain ⟨⟨rest, seq₁⟩, hrest, h⟩ := Result.bind_eq_ok.1 h
    cases h
    obtain ⟨hlen, hcells⟩ := ih hrest
    refine ⟨by rw [List.length_cons, List.length_cons, hlen], ?_⟩
    intro j v hv
    cases j with
    | zero =>
      cases hv
      exact hcell
    | succ j =>
      rw [List.getElem?_cons_succ] at hv
      have := hcells j v hv
      rwa [Nat.add_assoc, Nat.add_comm 1 j] at this

/-- A row built has the kinds of its columns and no NULL where none is allowed. -/
theorem buildRow_eq_ok {env : Env} {ordinal : Nat} {provided : List (String × Value)}
    {seq seq' : Int64} (h : buildRow env ordinal d provided seq = .ok (row, seq')) :
    Fits d row ∧ NotNull d row := by
  obtain ⟨cells, -, h⟩ := Result.bind_eq_ok.1 h
  obtain ⟨hlen, hcells⟩ := buildCells_eq_ok h
  refine ⟨⟨hlen, ?_⟩, ?_⟩
  · intro ci col v hcol hv
    have hcheck := hcells ci v hv
    rw [Nat.zero_add] at hcheck
    exact (checkCellType_eq_ok hcheck hcol).2
  · intro ci hv
    have hcheck := hcells ci .null hv
    rw [Nat.zero_add] at hcheck
    have hlt : ci < d.columns.length := hlen ▸ (List.getElem?_eq_some_iff.1 hv).1
    exact (checkCellType_eq_ok hcheck (List.getElem?_eq_getElem hlt)).1 rfl

/-! ## Stored rows -/

/-- A full row comes back as it was encoded, with nothing padded. -/
theorem decodePadded_encodeRow {bytes : Bytes} (h : encodeRow row = .ok bytes)
    (hlen : row.length = d.columns.length) : decodePadded d bytes = .ok row := by
  rw [decodePadded, decodeRow_encodeRow h]
  show (if row.length > d.columns.length then _ else _) = _
  rw [if_neg (by omega), hlen, List.drop_length]
  simp

theorem RowValid.stored {key bytes : Bytes} (h : RowValid d key row)
    (hbytes : encodeRow row = .ok bytes) : StoredValid d key bytes :=
  ⟨row, decodePadded_encodeRow hbytes h.length, h⟩

/-- A row is as valid under a definition with the same columns, key and checks. -/
theorem StoredValid.congr {d' : TableDef} {key bytes : Bytes} (h : StoredValid d key bytes)
    (hcols : d'.columns = d.columns) (hpk : d'.pk = d.pk) (hchecks : d'.checks = d.checks) :
    StoredValid d' key bytes := by
  have hindex : ∀ name, d'.colIndex name = d.colIndex name := by
    intro name
    rw [TableDef.colIndex, hcols]
    rfl
  have hnullable : ∀ ci, d'.isNullable ci = d.isNullable ci := by
    intro ci
    simp only [TableDef.isNullable, TableDef.isPk, hcols, hpk]
  obtain ⟨row, hrow, hvalid⟩ := h
  refine ⟨row, ?_, ⟨?_, ?_⟩, ?_, ?_, ?_⟩
  · rw [decodePadded, hcols]
    exact hrow
  · rw [hcols]
    exact hvalid.length
  · rw [hcols]
    exact hvalid.cells
  · have : pkCells d' row = pkCells d row := by
      simp only [pkCells, hpk, hindex]
    rw [this]
    exact hvalid.key
  · intro ci hci
    rw [hnullable]
    exact hvalid.notNull ci hci
  · intro check hcheck
    rw [hchecks] at hcheck
    rw [CheckExpr.eval_congr check]
    · exact hvalid.checks check hcheck
    · intro col _
      simp only [CheckExpr.cell, hindex]

/-! ## Wider definitions -/

theorem decodePadded_eq_ok {bytes : Bytes} (h : decodePadded d bytes = .ok row) :
    ∃ raw, decodeRow bytes = .ok raw ∧ raw.length ≤ d.columns.length ∧
      row = raw ++ (d.columns.drop raw.length).map ColumnDef.padding := by
  obtain ⟨raw, hraw, h⟩ := Result.bind_eq_ok.1 h
  obtain ⟨hle, h⟩ := Result.guard_eq_ok.1 h
  cases h
  exact ⟨raw, ofType_eq_ok.1 hraw, by omega, rfl⟩

/-- A stored row reads with one more padded cell under a wider definition. -/
theorem decodePadded_widen {d' : TableDef} {column : ColumnDef} {bytes : Bytes}
    (hcols : d'.columns = d.columns ++ [column]) (h : decodePadded d bytes = .ok row) :
    decodePadded d' bytes = .ok (row ++ [column.padding]) := by
  obtain ⟨raw, hraw, hle, rfl⟩ := decodePadded_eq_ok h
  rw [decodePadded, hraw]
  show (if raw.length > d'.columns.length then _ else _) = _
  rw [hcols, if_neg (by rw [List.length_append]; omega), List.drop_append_of_le_length hle,
    List.map_append, List.append_assoc]
  rfl

/-- What a column reads as in rows written before it fits the column. -/
theorem padding_fits {col : ColumnDef} (hcol : col.WellFormed) (hback : backfillable col = true) :
    (col.padding = .null ∧ col.nullable = true) ∨ CellFits col.kind col.padding := by
  have hdefault := hcol.default
  unfold defaultFits at hdefault
  unfold backfillable at hback
  unfold ColumnDef.padding
  cases hd : col.default with
  | none =>
    rw [hd] at hback
    exact .inl ⟨rfl, by simpa using hback⟩
  | some spec =>
    rw [hd] at hback hdefault
    cases spec with
    | now => exact .inl ⟨rfl, by simpa using hback⟩
    | uuidV7 => exact .inl ⟨rfl, by simpa using hback⟩
    | value v =>
      cases v with
      | null =>
        obtain ⟨hnull, -⟩ := Result.guard_eq_ok.1 hdefault
        exact .inl ⟨rfl, by simpa using hnull⟩
      | json doc =>
        obtain ⟨hkind, hjson⟩ := Result.guard_eq_ok.1 hdefault
        refine .inr ⟨congrArg some (not_not.1 hkind), ?_⟩
        intro doc' hdoc
        cases hdoc
        exact ofType_eq_ok.1 hjson
      | _ =>
        obtain ⟨hkind, -⟩ := Result.guard_eq_ok.1 hdefault
        refine .inr ⟨congrArg some (not_not.1 hkind), ?_⟩
        intro doc hdoc
        cases hdoc

section Widen

variable {d' : TableDef} {column : ColumnDef} (hcols : d'.columns = d.columns ++ [column])

include hcols

/-- The cell of an old column is the old one. -/
theorem cell_widen (hlen : row.length = d.columns.length) {name : String} {ci : Nat}
    (hci : d.colIndex name = some ci) (v : Value) :
    CheckExpr.cell d' (row ++ [v]) name = CheckExpr.cell d row name := by
  have hlt := TableDef.colIndex_lt hci
  rw [CheckExpr.cell, CheckExpr.cell, TableDef.colIndex_append hcols hci, hci, Option.bind_some,
    Option.bind_some, List.getElem?_append_left (by omega)]

theorem isNullable_widen (hpk : d'.pk = d.pk) {ci : Nat} (hci : ci < d.columns.length) :
    d'.isNullable ci = d.isNullable ci := by
  simp only [TableDef.isNullable, TableDef.isPk, hpk, hcols, List.getElem?_append_left hci]

theorem pkCells_widen (hd : d.WellFormed) (hpk : d'.pk = d.pk)
    (hlen : row.length = d.columns.length) (v : Value) :
    pkCells d' (row ++ [v]) = pkCells d row := by
  rw [pkCells, pkCells, hpk]
  apply List.filterMap_congr
  intro name hname
  obtain ⟨col, hmem, rfl, -⟩ := hd.pk name hname
  obtain ⟨ci, hci⟩ := TableDef.colIndex_of_mem hmem
  have hlt := TableDef.colIndex_lt hci
  rw [TableDef.colIndex_append hcols hci, hci]
  simp only [Option.map_some, List.getD_eq_getElem?_getD,
    List.getElem?_append_left (show ci < row.length by omega)]

/-- An added column is nullable when it says so: no key column has its name. -/
theorem isNullable_added (hd : d.WellFormed) (hpk : d'.pk = d.pk)
    (hfresh : d.colIndex column.name = none) (hnull : column.nullable = true) :
    d'.isNullable d.columns.length = true := by
  have hcol : d'.columns[d.columns.length]? = some column := by
    rw [hcols, List.getElem?_append_right (Nat.le_refl _), Nat.sub_self]
    rfl
  have hnot : column.name ∉ d.pk := by
    intro hmem
    obtain ⟨col, hcolmem, hname, -⟩ := hd.pk column.name hmem
    obtain ⟨ci, hci⟩ := TableDef.colIndex_of_mem hcolmem
    rw [hname, hfresh] at hci
    cases hci
  simp only [TableDef.isNullable, TableDef.isPk, hcol, Option.any_some, hnull, hpk, Bool.true_and]
  simpa using hnot

/-- Old rows satisfy a definition with a column added behind the others. -/
theorem StoredValid.widen {key bytes : Bytes} (hd : d.WellFormed) (hd' : d'.WellFormed)
    (hpk : d'.pk = d.pk) (hchecks : d'.checks = d.checks)
    (hfresh : d.colIndex column.name = none) (hback : backfillable column = true)
    (h : StoredValid d key bytes) : StoredValid d' key bytes := by
  obtain ⟨row, hrow, hvalid⟩ := h
  have hlen := hvalid.length
  have hpad := padding_fits (hd'.columns column (by simp [hcols])) hback
  refine ⟨_, decodePadded_widen hcols hrow, ⟨?_, ?_⟩, ?_, ?_, ?_⟩
  -- a row stored before the column is read with the padding behind it
  · rw [hcols, List.length_append, List.length_append, hlen]
    rfl
  · intro ci col v hcol hv
    rw [hcols, List.getElem?_append] at hcol
    rw [List.getElem?_append, hlen] at hv
    split at hcol
    · next hlt =>
      rw [if_pos hlt] at hv
      exact hvalid.cells ci col v hcol hv
    · next hge =>
      rw [if_neg hge] at hv
      rw [List.mem_singleton.1 (List.mem_of_getElem? hcol),
        List.mem_singleton.1 (List.mem_of_getElem? hv)]
      exact hpad.imp (fun h => h.1) id
  · rw [pkCells_widen hcols hd hpk hlen]
    exact hvalid.key
  · intro ci hv
    rw [List.getElem?_append, hlen] at hv
    split at hv
    · next hlt =>
      rw [isNullable_widen hcols hpk hlt]
      exact hvalid.notNull ci hv
    · next hge =>
      have hpadding : column.padding = .null :=
        (List.mem_singleton.1 (List.mem_of_getElem? hv)).symm
      have hci : ci = d.columns.length := by
        have := (List.getElem?_eq_some_iff.1 hv).1
        simp at this
        omega
      -- a NULL as padding needs a column that allows it
      rcases hpad with ⟨-, hnull⟩ | hfits
      · rw [hci]
        exact isNullable_added hcols hd hpk hfresh hnull
      · rw [hpadding] at hfits
        cases hfits.1
  · intro check hcheck
    rw [hchecks] at hcheck
    -- the checks are the old ones, and they read old columns only
    rw [CheckExpr.eval_congr check]
    · exact hvalid.checks check hcheck
    · intro col hcol
      obtain ⟨ci, hci⟩ := Option.isSome_iff_exists.1 (hd.checks check hcheck col hcol)
      exact cell_widen hcols hlen hci _

end Widen

end Edb.Catalog
