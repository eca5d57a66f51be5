import Edb.Catalog.Unique
import Edb.Query.Conjuncts
import Edb.Query.Page

/-!
# Access paths

A filter of equalities over a table is served by a point lookup or by an index: the candidates the
path yields are filtered again by the equalities, so they may be too many, and the path agrees with
the scan when they are not too few. They are enough when each literal is of its column's kind, and a
unique index has entries for the rows in question.
-/

namespace Edb.Catalog

open Edb.Lib Edb.Types

/-- What reading a table by an index relies on. -/
structure TableImage.Served (image : TableImage) : Prop where
  wellFormed : image.def_.WellFormed
  consistent : image.Consistent
  valid : ∀ e ∈ image.data, StoredValid image.def_ e.1 e.2

/-- The row an entry of the data tree holds. -/
def TableImage.rowAt (image : TableImage) (e : Bytes × Bytes) : List Value :=
  (decodePadded image.def_ e.2).toOption.getD []

variable {image : TableImage}

/-- A stored row of a served table reads as a valid row. -/
theorem TableImage.Served.row (h : image.Served) {e : Bytes × Bytes} (he : e ∈ image.data) :
    decodePadded image.def_ e.2 = .ok (image.rowAt e) ∧
      RowValid image.def_ e.1 (image.rowAt e) := by
  obtain ⟨row, hrow, hvalid⟩ := h.valid e he
  have hat : image.rowAt e = row := by
    rw [TableImage.rowAt, hrow]
    rfl
  rw [hat]
  exact ⟨hrow, hvalid⟩

/-- The rows under keys that are stored. -/
theorem fetch_rows (h : image.Served) {l : TreeContents} (hl : ∀ e ∈ l, e ∈ image.data) :
    CatSnapshot.fetch image (l.map Prod.fst) = .ok (l.map image.rowAt) := by
  induction l with
  | nil => rfl
  | cons e l ih =>
    obtain ⟨he, hl⟩ := List.forall_mem_cons.1 hl
    rw [List.map_cons, CatSnapshot.fetch, (OrdMap.find_eq_some_iff h.consistent.sorted).2 he]
    show (decodePadded image.def_ e.2 >>= _) = _
    rw [(h.row he).1, Result.ok_bind, ih hl]
    rfl

theorem scan_rows (h : image.Served) :
    image.data.mapM (fun e => decodePadded image.def_ e.2) = .ok (image.data.map image.rowAt) := by
  rw [Result.mapM_eq_ok, List.forall₂_map_right_iff, List.forall₂_same]
  exact fun e he => (h.row he).1

/-- Sorting distinct stored keys lists them in the order of the table. -/
theorem sort_keys {keys : List Bytes} {data : TreeContents} (hs : OrdMap.Sorted data)
    (hn : keys.Nodup) (hmem : ∀ k ∈ keys, ∃ v, (k, v) ∈ data) :
    keys.insertionSort (· ≤ ·) = (data.filter (fun e => decide (e.1 ∈ keys))).map Prod.fst := by
  have hsub : ((data.filter (fun e => decide (e.1 ∈ keys))).map Prod.fst).Pairwise (· < ·) :=
    (hs.sublist List.filter_sublist).keys
  refine List.Perm.eq_of_pairwise (fun a b _ _ hab hba => le_antisymm hab hba)
    (List.pairwise_insertionSort _ _) (hsub.imp le_of_lt) ((List.perm_insertionSort _ _).trans ?_)
  refine (List.perm_ext_iff_of_nodup hn (hsub.imp ne_of_lt)).2 (fun k => ?_)
  constructor
  · intro hk
    obtain ⟨v, hv⟩ := hmem k hk
    exact List.mem_map.2 ⟨(k, v), List.mem_filter.2 ⟨hv, decide_eq_true hk⟩, rfl⟩
  · intro hk
    obtain ⟨e, he, rfl⟩ := List.mem_map.1 hk
    exact of_decide_eq_true (List.mem_filter.1 he).2

/-- In a map in key order at most one binding has a key. -/
theorem filter_key {data : TreeContents} (hs : OrdMap.Sorted data) (k : Bytes) :
    data.filter (fun e => decide (e.1 = k)) =
      ((OrdMap.find k data).map (fun v => (k, v))).toList := by
  induction data with
  | nil => rfl
  | cons e data ih =>
    obtain ⟨hlt, hs⟩ := OrdMap.sorted_cons.1 hs
    rw [List.filter_cons, ih hs]
    by_cases hk : e.1 = k
    · subst hk
      have hnone : OrdMap.find e.1 data = none :=
        OrdMap.find_eq_none_of_forall_ne (fun x hx => ne_of_gt (hlt x hx))
      simp [OrdMap.find, hnone]
    · simp [OrdMap.find, hk]

end Edb.Catalog

namespace Edb.Query

open Edb.Lib Edb.Types Edb.Proto Edb.Catalog

/-! ## Equalities -/

/-- A row has the value of an equality in its column. -/
def Equality.meets (def_ : TableDef) (row : Row) (e : Equality) : Bool :=
  (CheckExpr.cell def_ row e.column).any (fun got => got.eqv e.value)

/-- The literal of an equality is of its column's kind, which is one that keys have. -/
def Equality.pins (def_ : TableDef) (e : Equality) : Bool :=
  (def_.colIndex e.column).any (fun ci => def_.columns[ci]?.any (fun col =>
    e.value.kind = some col.kind && col.kind ≠ .json))

section Equalities

variable {fx : Intrinsics} {d : TableDef} {row : Row} {qualifier : String} {e : Equality}

theorem Equality.pins_eq_true (h : e.pins d = true) : ∃ ci col, d.colIndex e.column = some ci ∧
    d.columns[ci]? = some col ∧ e.value.kind = some col.kind ∧ col.kind ≠ .json := by
  obtain ⟨ci, hci, h⟩ := (Option.any_eq_true _ _).1 h
  obtain ⟨col, hcol, h⟩ := (Option.any_eq_true _ _).1 h
  rw [Bool.and_eq_true, decide_eq_true_iff, decide_eq_true_iff] at h
  exact ⟨ci, col, hci, hcol, h.1, h.2⟩

/-- A value that pins a column is not NULL and has a key. -/
theorem Equality.pins_value (h : e.pins d = true) :
    e.value.isNull = false ∧ e.value.Keyable := by
  obtain ⟨ci, col, -, -, hkind, hjson⟩ := Equality.pins_eq_true h
  constructor
  · cases hv : e.value with
    | null =>
      rw [hv] at hkind
      cases hkind
    | _ => rfl
  · rw [Value.Keyable, hkind]
    exact fun heq => hjson (Option.some.inj heq)

theorem keyable_of_pins {es : List Equality} (hp : ∀ e ∈ es, e.pins d = true) :
    ∀ v ∈ es.map Equality.value, v.Keyable := by
  intro v hv
  obtain ⟨x, hx, rfl⟩ := List.mem_map.1 hv
  exact (Equality.pins_value (hp x hx)).2

/-- The cell an equality that pins is about. -/
theorem Equality.pins_cell (h : e.pins d = true) (hf : Catalog.Fits d row) :
    ∃ ci cell, d.colIndex e.column = some ci ∧ row[ci]? = some cell ∧
      CheckExpr.cell d row e.column = some cell ∧
      ∃ k, e.value.kind = some k ∧ (cell.kind = none ∨ cell.kind = some k) := by
  obtain ⟨ci, col, hci, hcol, hkind, -⟩ := Equality.pins_eq_true h
  have hlt : ci < row.length := by
    rw [hf.length]
    exact (List.getElem?_eq_some_iff.1 hcol).1
  refine ⟨ci, row[ci], hci, List.getElem?_eq_getElem hlt, ?_, col.kind, hkind, ?_⟩
  · rw [CheckExpr.cell, hci, Option.bind_some, List.getElem?_eq_getElem hlt]
  · rcases hf.cells ci col row[ci] hcol (List.getElem?_eq_getElem hlt) with hnull | hcell
    · rw [hnull]
      exact .inl rfl
    · exact .inr hcell.1

theorem columnHere_eq_some {expr : Expr} {name : String}
    (h : columnHere expr qualifier = some name) :
    ∃ t, (t = none ∨ t = some qualifier) ∧ expr = .column t name := by
  unfold columnHere at h
  split at h
  · next name' =>
    cases h
    exact ⟨none, .inl rfl, rfl⟩
  · next t name' =>
    split at h
    · next ht =>
      cases h
      exact ⟨some t, .inr (congrArg some ht), rfl⟩
    · cases h
  · cases h

theorem asLiteral_eq_some {expr : Expr} {v : Value} (h : asLiteral expr = some v) :
    expr = .literal v := by
  unfold asLiteral at h
  split at h
  · next v' =>
    cases h
    rfl
  · cases h

/-- An equality has a column of the scan on one side and a literal on the other. -/
theorem equalityOn_eq_some {c : Expr} {name : String} {v : Value}
    (h : equalityOn c qualifier = some (name, v)) :
    ∃ t, (t = none ∨ t = some qualifier) ∧ (c = .cmp .eq (.column t name) (.literal v) ∨
      c = .cmp .eq (.literal v) (.column t name)) := by
  unfold equalityOn at h
  split at h
  · next lhs rhs =>
    split at h
    · next hname hv =>
      cases h
      obtain ⟨t, ht, rfl⟩ := columnHere_eq_some hname
      rw [asLiteral_eq_some hv]
      exact ⟨t, ht, .inl rfl⟩
    · split at h
      · next hname hv =>
        cases h
        obtain ⟨t, ht, rfl⟩ := columnHere_eq_some hname
        rw [asLiteral_eq_some hv]
        exact ⟨t, ht, .inr rfl⟩
      · cases h
  · cases h

/-- A reference to a table's column resolves to its place in the row. -/
theorem resolve_tableShape {t : Option String} (ht : t = none ∨ t = some qualifier)
    (name : String) : (tableShape d qualifier).resolve t name = d.colIndex name := by
  rw [Shape.resolve, tableShape, List.findIdx?_map, TableDef.colIndex]
  refine congrArg (fun p => List.findIdx? p d.columns) (funext (fun col => ?_))
  rcases ht with rfl | rfl <;> simp [BoundColumn.named]

/-- Comparing a cell with a literal of its kind is equality of values. -/
theorem evalCmp_eq_true {k : TypeKind} {cell v : Value} (hv : v.kind = some k)
    (hc : cell.kind = none ∨ cell.kind = some k) :
    (evalCmp .eq cell v = .bool true ↔ cell.eqv v = true) ∧
      (evalCmp .eq v cell = .bool true ↔ cell.eqv v = true) := by
  have hnull : v.isNull = false := by
    cases v with
    | null => cases hv
    | _ => rfl
  have hsymm : v.eqv cell = true ↔ cell.eqv v = true := ⟨Value.eqv_symm, Value.eqv_symm⟩
  rw [evalCmp, evalCmp, hnull, Bool.or_false, Bool.false_or,
    valueOrder_eq_logicalCmp hc (.inr hv), valueOrder_eq_logicalCmp (.inr hv) hc]
  cases hcell : cell.isNull with
  | true =>
    have hne : ¬ cell.eqv v = true := by
      intro h
      rw [isNull_of_eqv h hnull] at hcell
      cases hcell
    simp [hne]
  | false =>
    have hswap : v.logicalCmp cell = .eq ↔ cell.logicalCmp v = .eq := by
      simpa [Value.eqv] using hsymm
    simp [CmpOp.holds, Value.eqv, hswap]

/-- **An equality that pins is true of the rows that have the value.** -/
theorem holds_equality {c : Expr} (hc : equalityOn c qualifier = some (e.column, e.value))
    (hp : e.pins d = true) (hf : Catalog.Fits d row) :
    holds fx (tableShape d qualifier) c row = e.meets d row := by
  obtain ⟨ci, cell, hci, hcell, hread, k, hv, hk⟩ := Equality.pins_cell hp hf
  obtain ⟨t, ht, hcases⟩ := equalityOn_eq_some hc
  have hcolumn : eval fx row (tableShape d qualifier) (.column t e.column) = .ok cell := by
    rw [eval, resolve_tableShape ht, hci]
    show Except.ok (row.getD ci .null) = _
    rw [List.getD_eq_getElem?_getD, hcell]
    rfl
  rw [Bool.eq_iff_iff, holds_iff, Equality.meets, hread, Option.any_some]
  rcases hcases with rfl | rfl
  · rw [eval, hcolumn, eval]
    show Except.ok (evalCmp .eq cell e.value) = _ ↔ _
    rw [Except.ok.injEq, (evalCmp_eq_true hv hk).1]
  · rw [eval, hcolumn, eval]
    show Except.ok (evalCmp .eq e.value cell) = _ ↔ _
    rw [Except.ok.injEq, (evalCmp_eq_true hv hk).2]

/-! ## Lists of equalities -/

/-- What an index covers is among the equalities at hand. -/
theorem covered_mem {eqs : List Equality} {cols : List String} :
    ∀ e ∈ covered eqs cols, e ∈ eqs := by
  induction cols with
  | nil => exact fun e he => absurd he List.not_mem_nil
  | cons col cols ih =>
    intro e he
    rw [covered] at he
    split at he
    · next e' hfind =>
      rcases List.mem_cons.1 he with rfl | he
      · exact List.mem_of_find?_eq_some hfind
      · exact ih e he
    · cases he

/-- The equalities that are taken are on the leading columns. -/
theorem covered_columns {eqs : List Equality} {cols : List String} :
    (covered eqs cols).map Equality.column <+: cols := by
  induction cols with
  | nil => exact List.prefix_rfl
  | cons col cols ih =>
    rw [covered]
    split
    · next e hfind =>
      have hcol : e.column = col := by simpa using List.find?_some hfind
      rw [List.map_cons, hcol]
      exact List.cons_prefix_cons.2 ⟨rfl, ih⟩
    · exact List.nil_prefix

/-- The cells of a row the equalities are about. -/
def cellsOf (d : TableDef) (row : Row) (es : List Equality) : List Value :=
  es.map (fun e => (CheckExpr.cell d row e.column).getD .null)

/-- A row that has the values of all equalities has cells equal to them. -/
theorem valuesEqv_cells {es : List Equality} (hp : ∀ e ∈ es, e.pins d = true)
    (hf : Catalog.Fits d row) :
    valuesEqv (cellsOf d row es) (es.map Equality.value) = es.all (Equality.meets d row) := by
  induction es with
  | nil => rfl
  | cons e es ih =>
    obtain ⟨he, hes⟩ := List.forall_mem_cons.1 hp
    obtain ⟨-, cell, -, -, hcell, -⟩ := Equality.pins_cell he hf
    rw [cellsOf, List.map_cons, List.map_cons, valuesEqv, List.all_cons, ← ih hes, Equality.meets,
      hcell]
    rfl

/-- A row that meets the equalities has their values in its key. -/
theorem pkCells_of_pins {es : List Equality} (hp : ∀ e ∈ es, e.pins d = true)
    (hf : Catalog.Fits d row) :
    (es.map Equality.column).filterMap
      (fun name => (d.colIndex name).map (fun ci => row.getD ci .null)) = cellsOf d row es := by
  induction es with
  | nil => rfl
  | cons e es ih =>
    obtain ⟨he, hes⟩ := List.forall_mem_cons.1 hp
    obtain ⟨ci, cell, hci, hcell, hread, -⟩ := Equality.pins_cell he hf
    have hcell : row.getD ci .null = cell := by
      rw [List.getD_eq_getElem?_getD, hcell]
      rfl
    rw [List.map_cons, List.filterMap_cons, hci, Option.map_some, hcell, ih hes, cellsOf, cellsOf,
      List.map_cons, hread]
    rfl

theorem valuesEqv_iff_logicalCmp {as bs : List Value} :
    valuesEqv as bs = true ↔ List.Forall₂ (fun a b => a.logicalCmp b = .eq) as bs := by
  induction as generalizing bs with
  | nil => cases bs <;> simp [valuesEqv]
  | cons a as ih =>
    cases bs with
    | nil => simp [valuesEqv]
    | cons b bs => rw [valuesEqv, Bool.and_eq_true, ih, List.forall₂_cons, Value.eqv, beq_iff_eq]

/-- The filter behind an index probe keeps the rows that have the values. -/
theorem agrees_eq {es : List Equality} {names : List String}
    (hcols : es.map Equality.column <+: names) (hnames : ∀ name ∈ names, (d.colIndex name).isSome) :
    agrees (es.map Equality.value) (names.filterMap d.colIndex) row =
      es.all (Equality.meets d row) := by
  induction es generalizing names with
  | nil => rfl
  | cons e es ih =>
    cases names with
    | nil => exact absurd (List.prefix_nil.1 hcols) (List.cons_ne_nil _ _)
    | cons name names =>
      rw [List.map_cons, List.cons_prefix_cons] at hcols
      obtain ⟨rfl, hcols⟩ := hcols
      obtain ⟨hname, hnames⟩ := List.forall_mem_cons.1 hnames
      obtain ⟨ci, hci⟩ := Option.isSome_iff_exists.1 hname
      rw [List.map_cons, List.filterMap_cons_some hci, agrees, List.zip_cons_cons, List.all_cons,
        List.all_cons, Equality.meets, CheckExpr.cell, hci]
      exact congrArg _ (ih hcols hnames)

/-- The consumed conjuncts are true of the rows that have their values. -/
theorem consumed_hold {conjuncts : List Expr} {es : List Equality}
    (hes : ∀ e ∈ es, e ∈ equalities conjuncts qualifier) (hp : ∀ e ∈ es, e.pins d = true)
    (hf : Catalog.Fits d row) :
    es.all (fun e => conjuncts[e.conjunct]?.all
      (fun c => holds fx (tableShape d qualifier) c row)) = es.all (Equality.meets d row) := by
  induction es with
  | nil => rfl
  | cons e es ih =>
    obtain ⟨he, hes⟩ := List.forall_mem_cons.1 hes
    obtain ⟨hpin, hp⟩ := List.forall_mem_cons.1 hp
    obtain ⟨c, hc, heq⟩ := mem_equalities.1 he
    rw [List.all_cons, List.all_cons, ih hes hp, hc, Option.all_some,
      holds_equality heq hpin hf]

end Equalities

/-! ## Paths -/

section Paths

variable {fx : Intrinsics} {snap : CatSnapshot} {table : String} {image : TableImage}
  (hi : snap.image table = .ok image) (hs : image.Served)

include hi in
theorem snapshot_table : snap.table table = .ok image.def_ := by
  rw [CatSnapshot.table, hi]
  rfl

include hi hs

theorem scan_eq (alias_ : Option String) : scan snap table alias_ none =
    .ok ⟨tableShape image.def_ (alias_.getD table), image.data.map image.rowAt⟩ := by
  rw [scan, snapshot_table hi]
  show (ofCatalog (snap.scan table) >>= _) = _
  rw [CatSnapshot.scan, hi, Result.ok_bind, scan_rows hs]
  rfl

omit hi in
/-- The stored key of a row is that of the primary key it has. -/
theorem pk_meets {es : List Equality} (hcols : es.map Equality.column = image.def_.pk)
    (hp : ∀ e ∈ es, e.pins image.def_ = true) {e : Bytes × Bytes} (he : e ∈ image.data) :
    e.1 = (es.map Equality.value).flatMap component ↔
      es.all (Equality.meets image.def_ (image.rowAt e)) = true := by
  obtain ⟨-, hvalid⟩ := hs.row he
  have hkey := hvalid.key
  rw [pkCells, ← hcols, pkCells_of_pins hp hvalid.toFits] at hkey
  have hkeyable := keyable_of_encodeKey hkey
  rw [encodeKey_eq hkeyable] at hkey
  have hvalues := keyable_of_pins hp
  rw [← valuesEqv_cells hp hvalid.toFits, ← Except.ok.inj hkey]
  constructor
  · intro h
    have hinj := component_embeds.flatMap_append_inj (fun _ _ => cmpBytes_eq) (s := []) (t := [])
      hkeyable hvalues (by simp [cellsOf])
    rw [List.append_nil, List.append_nil] at hinj
    exact valuesEqv_iff_logicalCmp.2 (hinj.1 h).1
  · exact fun h => (flatMap_component_congr hvalues h).2

/-- **A point lookup yields the rows that have the values.** -/
theorem pkLookup_eq (alias_ : Option String) {es : List Equality}
    (hcols : es.map Equality.column = image.def_.pk) (hp : ∀ e ∈ es, e.pins image.def_ = true) :
    pkLookup snap table alias_ (es.map Equality.value) =
      .ok ⟨tableShape image.def_ (alias_.getD table),
        (image.data.map image.rowAt).filter
          (fun row => es.all (Equality.meets image.def_ row))⟩ := by
  have hvalues := keyable_of_pins hp
  have hrows : (image.data.map image.rowAt).filter
      (fun row => es.all (Equality.meets image.def_ row)) =
        ((OrdMap.find ((es.map Equality.value).flatMap component) image.data).map
          (fun bytes =>
            image.rowAt ((es.map Equality.value).flatMap component, bytes))).toList := by
    rw [List.filter_map]
    have hcongr := List.filter_congr (l := image.data) (fun e he =>
      Bool.eq_iff_iff.2 (decide_eq_true_iff.trans (pk_meets hs hcols hp he)))
    show (image.data.filter (fun e => es.all (Equality.meets image.def_ (image.rowAt e)))).map _ = _
    rw [← hcongr, filter_key hs.consistent.sorted]
    cases OrdMap.find ((es.map Equality.value).flatMap component) image.data with
    | none => rfl
    | some bytes => rfl
  have hkey : (ofType (encodeKey (es.map Equality.value)) : CatResult Bytes) =
      .ok ((es.map Equality.value).flatMap component) := by
    rw [encodeKey_eq hvalues]
    rfl
  rw [pkLookup, snapshot_table hi, hrows]
  show (ofCatalog (snap.get table _) >>= _) = _
  rw [CatSnapshot.get, hi, Result.ok_bind, hkey, Result.ok_bind]
  cases hfind : OrdMap.find ((es.map Equality.value).flatMap component) image.data with
  | none => rfl
  | some bytes =>
    have hrow := (hs.row (OrdMap.mem_of_find hfind)).1
    show (ofCatalog (decodePadded image.def_ bytes >>= _) >>= _) = _
    rw [hrow]
    rfl

/-- A unique index has an entry for every row that has the values. -/
def covers (image : TableImage) (idx : IndexDef) (es : List Equality) : Bool :=
  !idx.unique || image.data.all (fun e => !es.all (Equality.meets image.def_ (image.rowAt e)) ||
    (indexCols image.def_ idx (image.rowAt e)).all (fun v => !v.isNull))

variable {idx : IndexDef} {es : List Equality} {tree : TreeContents}

omit hi hs in
theorem find_index {indexes : List IndexDef} (h : indexes.Pairwise (fun a b => a.name ≠ b.name))
    (hidx : idx ∈ indexes) : indexes.find? (fun i => i.name == idx.name) = some idx := by
  induction indexes with
  | nil => cases hidx
  | cons i indexes ih =>
    obtain ⟨hne, h⟩ := List.pairwise_cons.1 h
    rcases List.mem_cons.1 hidx with rfl | hidx
    · rw [List.find?_cons_of_pos (by simp)]
    · rw [List.find?_cons_of_neg (by simpa using hne idx hidx), ih h hidx]

omit hi in
/-- The candidates of a probe are stored rows, each once. -/
theorem probe_keys (hholds : image.Holds idx tree) (lo : Bytes) (hi : Option Bytes) :
    ((CatSnapshot.rangeIn lo hi tree).map Prod.snd).Nodup ∧
      ∀ k ∈ (CatSnapshot.rangeIn lo hi tree).map Prod.snd, ∃ v, (k, v) ∈ image.data := by
  obtain ⟨rows, hrows, hperm⟩ := hholds
  have hnodup : (tree.map Prod.snd).Nodup := by
    rw [(hperm.map Prod.snd).nodup_iff]
    exact (hs.consistent.sorted.keys.imp ne_of_lt).sublist (rowEntries_sublist hrows)
  refine ⟨hnodup.sublist (List.filter_sublist.map Prod.snd), fun k hk => ?_⟩
  obtain ⟨⟨key, value⟩, he, rfl⟩ := List.mem_map.1 hk
  obtain ⟨bytes, -, hmem, -⟩ :=
    (mem_rowEntries hrows).1 (hperm.mem_iff.1 (List.mem_filter.1 he).1)
  exact ⟨bytes, hmem⟩

omit hi in
/-- A row that has the values is among the candidates of the probe. -/
theorem probe_covers (hcols : es.map Equality.column <+: idx.columns)
    (hp : ∀ e ∈ es, e.pins image.def_ = true) (hcov : covers image idx es = true)
    (hholds : image.Holds idx tree) {e : Bytes × Bytes} (he : e ∈ image.data)
    (hmeets : es.all (Equality.meets image.def_ (image.rowAt e)) = true) :
    e.1 ∈ (CatSnapshot.rangeIn ((es.map Equality.value).flatMap component)
      (successor ((es.map Equality.value).flatMap component)) tree).map Prod.snd := by
  obtain ⟨rows, hrows, hperm⟩ := hholds
  obtain ⟨hdec, hvalid⟩ := hs.row he
  obtain ⟨entry_, hentry⟩ := rowEntries_total hrows he hdec
  have hvalues := keyable_of_pins hp
  have hbytes := (flatMap_component_congr hvalues
    ((valuesEqv_cells hp hvalid.toFits).trans hmeets)).2
  obtain ⟨more, hmore⟩ := hcols
  have hindex : indexCols image.def_ idx (image.rowAt e) = cellsOf image.def_ (image.rowAt e) es ++
      more.map (fun name => (CheckExpr.cell image.def_ (image.rowAt e) name).getD .null) := by
    rw [indexCols, ← hmore, List.map_append, List.map_map]
    rfl
  have hraw := hentry
  rw [entryFor, rej_eq_ok, ofType_eq_ok] at hraw
  cases entry_ with
  | none =>
    -- only a NULL in a unique index leaves a row without an entry
    rw [entry] at hraw
    split at hraw
    · next hnull =>
      rw [Bool.and_eq_true] at hnull
      rw [covers, hnull.1, Bool.not_true, Bool.false_or, List.all_eq_true] at hcov
      have hall := hcov e he
      rw [hmeets, Bool.not_true, Bool.false_or, List.all_eq_true] at hall
      obtain ⟨v, hv, hvnull⟩ := List.any_eq_true.1 hnull.2
      have hv := hall v hv
      rw [hvnull] at hv
      cases hv
    · obtain ⟨key, -, h⟩ := Result.bind_eq_ok.1 hraw
      cases h
  | some x =>
    obtain ⟨-, hkey⟩ := entry_eq_some hraw
    obtain ⟨key, value⟩ := x
    cases entryFor_value hentry
    have hin := hperm.mem_iff.2 ((mem_rowEntries hrows).2 ⟨e.2, image.rowAt e, he, hdec, hentry⟩)
    rw [show key = _ from hkey, hindex, List.flatMap_append, hbytes, List.append_assoc] at hin
    exact List.mem_map.2 ⟨_, mem_rangeIn_prefix hin, rfl⟩

/-- **An index probe yields the rows that have the values.** -/
theorem indexScan_eq (alias_ : Option String) (hidx : idx ∈ image.def_.indexes)
    (hcols : es.map Equality.column <+: idx.columns) (hne : es ≠ [])
    (hp : ∀ e ∈ es, e.pins image.def_ = true) (hcov : covers image idx es = true) :
    scan snap table alias_ (some (idx.name, es.map Equality.value)) =
      .ok ⟨tableShape image.def_ (alias_.getD table),
        (image.data.map image.rowAt).filter
          (fun row => es.all (Equality.meets image.def_ row))⟩ := by
  obtain ⟨tree, htree, -, hholds⟩ := hs.consistent.indexes idx hidx
  have hvalues := keyable_of_pins hp
  have hprobe : (!(es.map Equality.value).isEmpty &&
      image.def_.indexes.any (fun i => i.name == idx.name)) = true := by
    rw [Bool.and_eq_true, List.any_eq_true]
    exact ⟨by simpa using hne, idx, hidx, by simp⟩
  -- the rows the probe yields, in the order of the table
  obtain ⟨hnodup, hstored⟩ := probe_keys hs hholds ((es.map Equality.value).flatMap component)
    (successor ((es.map Equality.value).flatMap component))
  have hrows : scanRows snap image.def_ table (some (idx.name, es.map Equality.value)) =
      .ok ((image.data.filter (fun e => decide (e.1 ∈ (CatSnapshot.rangeIn
        ((es.map Equality.value).flatMap component)
        (successor ((es.map Equality.value).flatMap component)) tree).map Prod.snd))).map
          image.rowAt) := by
    rw [scanRows, if_pos hprobe, CatSnapshot.indexCandidates, hi, Result.ok_bind,
      OrdMap.lookup_eq_find, htree]
    show (ofType (prefixBounds _) >>= _) = _
    rw [prefixBounds, encodeKey_eq hvalues]
    show CatSnapshot.fetch image (List.insertionSort _ _) = _
    rw [sort_keys hs.consistent.sorted hnodup hstored]
    exact fetch_rows hs (fun e he => (List.mem_filter.1 he).1)
  have hretain : ∀ rows, retainPrefix image.def_ rows (some (idx.name, es.map Equality.value)) =
      rows.filter (fun row => es.all (Equality.meets image.def_ row)) := by
    intro rows
    rw [retainPrefix, find_index hs.wellFormed.indexNames hidx]
    exact List.filter_congr (fun row _ => agrees_eq hcols (hs.wellFormed.indexColumns idx hidx))
  rw [scan, snapshot_table hi]
  show (ofCatalog (scanRows snap image.def_ table _) >>= _) = _
  rw [hrows]
  show Except.ok (Relation.mk _ (retainPrefix image.def_ _ _)) = _
  rw [hretain, List.filter_map, List.filter_map, List.filter_filter]
  refine congrArg (fun es => Except.ok (Relation.mk _ (List.map _ es)))
    (List.filter_congr (fun e he => ?_))
  rw [Function.comp_apply]
  cases hmeets : es.all (Equality.meets image.def_ (image.rowAt e)) with
  | false => rfl
  | true => exact decide_eq_true (probe_covers hs hcols hp hcov hholds he hmeets)

/-! ## Index selection -/

omit hi hs in
/-- The best index covers some equality with its first columns. -/
theorem bestIndex_eq_some {eqs hit : List Equality} {indexes : List IndexDef} {index : String}
    {best : Option (String × List Equality)} (h : bestIndex eqs indexes best = some (index, hit)) :
    best = some (index, hit) ∨
      ∃ idx ∈ indexes, index = idx.name ∧ hit = covered eqs idx.columns ∧ hit ≠ [] := by
  induction indexes generalizing best with
  | nil => exact .inl h
  | cons idx indexes ih =>
    rw [bestIndex] at h
    split at h
    · next hbetter =>
      rcases ih h with heq | ⟨idx', hmem, hrest⟩
      · cases heq
        rw [Bool.and_eq_true] at hbetter
        exact .inr ⟨idx, List.mem_cons_self, rfl, rfl, by simpa using hbetter.1⟩
      · exact .inr ⟨idx', List.mem_cons_of_mem _ hmem, hrest⟩
    · rcases ih h with heq | ⟨idx', hmem, hrest⟩
      · exact .inl heq
      · exact .inr ⟨idx', List.mem_cons_of_mem _ hmem, hrest⟩

/-- The access path taken for a filter finds every row: the literals it uses are of their columns'
kinds, and an index it uses has entries for the rows in question. -/
def answers (image : TableImage) (qualifier : String) (pred : Expr) : Bool :=
  let eqs := equalities (flattenAnd pred) qualifier
  let key := covered eqs image.def_.pk
  if !image.def_.pk.isEmpty && key.length == image.def_.pk.length then
    key.all (Equality.pins image.def_)
  else
    match bestIndex eqs image.def_.indexes none with
    | none => true
    | some (index, hit) => hit.all (Equality.pins image.def_) &&
        (image.def_.indexes.find? (fun i => i.name == index)).all (fun idx => covers image idx hit)

variable {pred : Expr} {alias_ : Option String}

/-- A plan yields the rows of a filter over the table, and returns if the predicate has a value of
every row. -/
structure Serves (fx : Intrinsics) (snap : CatSnapshot) (image : TableImage) (qualifier : String)
    (pred : Expr) (path : Plan) : Prop where
  readable : Readable fx snap path
  means : meaning fx snap path = ⟨tableShape image.def_ qualifier,
    (image.data.map image.rowAt).filter (holds fx (tableShape image.def_ qualifier) pred)⟩
  returns : (∀ row ∈ image.data.map image.rowAt,
      Decided fx (tableShape image.def_ qualifier) row pred) →
    execute fx snap path = .ok (meaning fx snap path)

omit hi in
/-- A path that uses some equalities, with a filter of the conjuncts it leaves. -/
theorem serves_wrapFilter {path : Plan} {qualifier : String}
    (hes : ∀ e ∈ es, e ∈ equalities (flattenAnd pred) qualifier)
    (hp : ∀ e ∈ es, e.pins image.def_ = true)
    (hpath : execute fx snap path = .ok ⟨tableShape image.def_ qualifier,
      (image.data.map image.rowAt).filter (fun row => es.all (Equality.meets image.def_ row))⟩) :
    Serves fx snap image qualifier pred (wrapFilter path (residual (flattenAnd pred) es)) := by
  have hrows : ((image.data.map image.rowAt).filter
      (fun row => es.all (Equality.meets image.def_ row))).filter
        (allHold fx (tableShape image.def_ qualifier) (residual (flattenAnd pred) es)) =
      (image.data.map image.rowAt).filter (holds fx (tableShape image.def_ qualifier) pred) := by
    rw [List.filter_filter]
    refine List.filter_congr (fun row hrow => ?_)
    obtain ⟨e, he, rfl⟩ := List.mem_map.1 hrow
    rw [holds_flattenAnd, allHold_residual (flattenAnd pred) es,
      consumed_hold hes hp (hs.row he).2.toFits]
  have hmeaning : meaning fx snap (wrapFilter path (residual (flattenAnd pred) es)) = _ :=
    meaning_wrapFilter path (residual (flattenAnd pred) es)
  rw [meaning_of_execute hpath, hrows] at hmeaning
  refine ⟨readable_wrapFilter.2 (readable_of_execute hpath), hmeaning, fun hdec => ?_⟩
  rw [hmeaning, ← hrows]
  refine execute_wrapFilter hpath (fun row hrow c hc => ?_)
  obtain ⟨i, hi, -⟩ := mem_residual.1 hc
  exact (decided_flattenAnd pred).1 (hdec row (List.mem_filter.1 hrow).1) c
    (List.mem_of_getElem? hi)

variable (fx) in
/-- **Index selection preserves meaning.** The access path for a filter over a table yields the rows
of the filtered scan, in its order, and returns whenever the filtered scan does. -/
theorem accessPath_serves (h : answers image (alias_.getD table) pred = true) :
    Serves fx snap image (alias_.getD table) pred (accessPath image.def_ table alias_ pred) := by
  rw [answers] at h
  rw [accessPath]
  split at h
  · next hpk =>
    rw [if_pos hpk]
    rw [Bool.and_eq_true, beq_iff_eq] at hpk
    -- the whole primary key is pinned: a lookup
    have hp := List.all_eq_true.1 h
    have hcols : (covered (equalities (flattenAnd pred) (alias_.getD table)) image.def_.pk).map
        Equality.column = image.def_.pk :=
      covered_columns.eq_of_length (by rw [List.length_map, hpk.2])
    exact serves_wrapFilter hs covered_mem hp (pkLookup_eq hi hs alias_ hcols hp)
  · next hpk =>
    rw [if_neg hpk]
    cases hbest : bestIndex (equalities (flattenAnd pred) (alias_.getD table))
        image.def_.indexes none with
    | none =>
      -- no index has its first column pinned: a scan
      have hscan : execute fx snap (.scan table alias_) = _ := scan_eq hi hs alias_
      refine ⟨⟨_, hscan⟩, ?_, fun hdec => ?_⟩
      · rw [meaning, meaning_of_execute hscan]
      · rw [meaning, meaning_of_execute hscan]
        exact Result.bind_eq_ok.2 ⟨_, hscan, Result.bind_eq_ok.2
          ⟨_, (filterRows_eq_ok fx).2 ⟨hdec, rfl⟩, rfl⟩⟩
    | some best =>
      obtain ⟨index, hit⟩ := best
      rw [hbest] at h
      change (hit.all _ && _) = true at h
      rw [Bool.and_eq_true] at h
      -- the index with the longest prefix pinned
      have hp := List.all_eq_true.1 h.1
      rcases bestIndex_eq_some hbest with heq | ⟨idx, hidx, rfl, rfl, hne⟩
      · cases heq
      · rw [find_index hs.wellFormed.indexNames hidx] at h
        exact serves_wrapFilter hs covered_mem hp
          (indexScan_eq hi hs alias_ hidx covered_columns hne hp h.2)

end Paths

end Edb.Query
