import Edb.Catalog.Run
import Mathlib.Data.List.Pairwise

/-!
# Well-formed definitions

What a definition that passed validation satisfies, as facts the row and reference
invariants use. None of them mentions the definition beyond its columns, its primary key and
the list it is about, so that adding or dropping an index leaves the others alone.
-/

namespace Edb.Catalog

open Edb.Types Edb.Lib

/-! ## Checks over a list -/

section EachAfter

variable {α : Type} {check : List α → α → CatResult Unit} {before l : List α}

theorem eachAfter_forall (h : eachAfter check before l = .ok ()) :
    ∀ a ∈ l, ∃ before, check before a = .ok () := by
  induction l generalizing before with
  | nil =>
    intro a ha
    cases ha
  | cons b l ih =>
    obtain ⟨⟨⟩, hb, h⟩ := Result.bind_eq_ok.1 h
    intro a ha
    rcases List.mem_cons.1 ha with rfl | ha
    · exact ⟨before, hb⟩
    · exact ih h a ha

/-- A relation to every element before that the check ensures holds along the list. -/
theorem eachAfter_pairwise {R : α → α → Prop}
    (h : eachAfter check before l = .ok ())
    (hR : ∀ before a, check before a = .ok () → ∀ b ∈ before, R b a) :
    l.Pairwise R ∧ ∀ b ∈ before, ∀ a ∈ l, R b a := by
  induction l generalizing before with
  | nil => exact ⟨.nil, fun _ _ a ha => absurd ha List.not_mem_nil⟩
  | cons c l ih =>
    obtain ⟨⟨⟩, hc, h⟩ := Result.bind_eq_ok.1 h
    obtain ⟨hl, hbefore⟩ := ih h
    constructor
    · exact .cons (hbefore c (by simp)) hl
    · intro b hb a ha
      rcases List.mem_cons.1 ha with rfl | ha
      · exact hR before a hc b hb
      · exact hbefore b (by simp [hb]) a ha

end EachAfter

/-! ## Columns by name -/

namespace TableDef

variable {d : TableDef} {name : String} {i : Nat}

theorem columnOf_eq_ok {col : ColumnDef} (h : CheckExpr.columnOf d name = .ok col) :
    col ∈ d.columns ∧ col.name = name := by
  rw [CheckExpr.columnOf] at h
  split at h
  · next c hc =>
    cases h
    exact ⟨List.mem_of_find?_eq_some hc, by simpa using List.find?_some hc⟩
  · cases h

theorem colIndex_eq_some (h : d.colIndex name = some i) :
    ∃ col, d.columns[i]? = some col ∧ col.name = name := by
  rw [colIndex, List.findIdx?_eq_some_iff_getElem] at h
  obtain ⟨hi, hname, -⟩ := h
  exact ⟨d.columns[i], List.getElem?_eq_getElem hi, by simpa using hname⟩

theorem colIndex_lt (h : d.colIndex name = some i) : i < d.columns.length := by
  obtain ⟨col, hcol, -⟩ := colIndex_eq_some h
  exact (List.getElem?_eq_some_iff.1 hcol).1

theorem colIndex_of_mem {col : ColumnDef} (h : col ∈ d.columns) :
    ∃ i, d.colIndex col.name = some i := by
  rw [← Option.isSome_iff_exists, colIndex, List.findIdx?_isSome, List.any_eq_true]
  exact ⟨col, h, by simp⟩

/-- Two names at one position are the same. -/
theorem colIndex_inj {name' : String} (h : d.colIndex name = some i)
    (h' : d.colIndex name' = some i) : name = name' := by
  obtain ⟨col, hcol, rfl⟩ := colIndex_eq_some h
  obtain ⟨col', hcol', rfl⟩ := colIndex_eq_some h'
  cases hcol.symm.trans hcol'
  rfl

/-- With distinct names a column is the only one of its name. -/
theorem column_unique {a b : ColumnDef} (hd : d.columns.Pairwise (fun a b => a.name ≠ b.name))
    (ha : a ∈ d.columns) (hb : b ∈ d.columns) (h : a.name = b.name) : a = b := by
  have : Std.Symm (fun a b : ColumnDef => a.name ≠ b.name) := ⟨fun _ _ h => h.symm⟩
  by_contra hne
  exact hd.forall ha hb hne h

/-- A column keeps its place when columns are added behind it. -/
theorem colIndex_append {d' : TableDef} {cols : List ColumnDef}
    (hd : d'.columns = d.columns ++ cols) (h : d.colIndex name = some i) :
    d'.colIndex name = some i := by
  rw [colIndex] at h ⊢
  rw [hd, List.findIdx?_append, h]
  rfl

theorem kindOf_append {d' : TableDef} {cols : List ColumnDef} {kind : TypeKind}
    (hd : d'.columns = d.columns ++ cols) (h : d.kindOf name = some kind) :
    d'.kindOf name = some kind := by
  rw [kindOf, Option.map_eq_some_iff] at h ⊢
  obtain ⟨col, hcol, hkind⟩ := h
  obtain ⟨i, hi, hcol⟩ := Option.bind_eq_some_iff.1 hcol
  refine ⟨col, ?_, hkind⟩
  have hlt := colIndex_lt hi
  rw [colIndex_append hd hi, Option.bind_some, hd, List.getElem?_append_left hlt]
  exact hcol

end TableDef

/-! ## CHECK expressions -/

namespace CheckExpr

mutual

/-- The columns an expression reads. -/
def reads : CheckExpr → List String
  | .cmp col _ _ => [col]
  | .isNull col => [col]
  | .isNotNull col => [col]
  | .and items => readsAll items
  | .or items => readsAll items
  | .not inner => reads inner

def readsAll : List CheckExpr → List String
  | [] => []
  | item :: items => reads item ++ readsAll items

end

theorem mem_readsAll {items : List CheckExpr} {item : CheckExpr} {col : String}
    (hitem : item ∈ items) (hcol : col ∈ item.reads) : col ∈ readsAll items := by
  induction items with
  | nil => cases hitem
  | cons e items ih =>
    rw [readsAll, List.mem_append]
    rcases List.mem_cons.1 hitem with rfl | hitem
    · exact .inl hcol
    · exact .inr (ih hitem)

section Eval

variable {d d' : TableDef} {row row' : List Value}

mutual

/-- An expression depends on the cells it reads alone. -/
theorem eval_congr (e : CheckExpr) (h : ∀ col ∈ e.reads, cell d' row' col = cell d row col) :
    eval d' row' e = eval d row e := by
  cases e with
  | cmp col op value => rw [eval, eval, h col (by simp [reads])]
  | isNull col => rw [eval, eval, h col (by simp [reads])]
  | isNotNull col => rw [eval, eval, h col (by simp [reads])]
  | and items =>
    rw [eval, eval]
    exact evalAnd_congr items false (by simpa only [reads] using h)
  | or items =>
    rw [eval, eval]
    exact evalOr_congr items false (by simpa only [reads] using h)
  | not inner => rw [eval, eval, eval_congr inner (by simpa only [reads] using h)]

theorem evalAnd_congr (items : List CheckExpr) (unknown : Bool)
    (h : ∀ col ∈ readsAll items, cell d' row' col = cell d row col) :
    evalAnd d' row' unknown items = evalAnd d row unknown items := by
  cases items with
  | nil => rw [evalAnd, evalAnd]
  | cons item items =>
    have hrest := fun unknown => evalAnd_congr items unknown
      (fun col hcol => h col (by simp [readsAll, hcol]))
    rw [evalAnd, evalAnd, eval_congr item (fun col hcol => h col (by simp [readsAll, hcol])),
      hrest true, hrest unknown]

theorem evalOr_congr (items : List CheckExpr) (unknown : Bool)
    (h : ∀ col ∈ readsAll items, cell d' row' col = cell d row col) :
    evalOr d' row' unknown items = evalOr d row unknown items := by
  cases items with
  | nil => rw [evalOr, evalOr]
  | cons item items =>
    have hrest := fun unknown => evalOr_congr items unknown
      (fun col hcol => h col (by simp [readsAll, hcol]))
    rw [evalOr, evalOr, eval_congr item (fun col hcol => h col (by simp [readsAll, hcol])),
      hrest true, hrest unknown]

end

end Eval

section Validate

variable {d : TableDef}

mutual

/-- A validated expression reads columns there are. -/
theorem reads_of_validate (e : CheckExpr) {depth : Nat} (h : validate d depth e = .ok ()) :
    ∀ col ∈ e.reads, (d.colIndex col).isSome := by
  cases e with
  | cmp col op value =>
    rw [validate, invalid, Result.guard_eq_ok] at h
    obtain ⟨column, hcolumn, -⟩ := Result.bind_eq_ok.1 h.2
    obtain ⟨hmem, rfl⟩ := TableDef.columnOf_eq_ok hcolumn
    simpa [reads, Option.isSome_iff_exists] using TableDef.colIndex_of_mem hmem
  | isNull col =>
    rw [validate, invalid, Result.guard_eq_ok, require_eq_ok] at h
    simpa [reads] using h.2
  | isNotNull col =>
    rw [validate, invalid, Result.guard_eq_ok, require_eq_ok] at h
    simpa [reads] using h.2
  | and items =>
    rw [validate, invalid, invalid, Result.guard_eq_ok, Result.guard_eq_ok] at h
    simpa only [reads] using reads_of_validateAll items h.2.2
  | or items =>
    rw [validate, invalid, invalid, Result.guard_eq_ok, Result.guard_eq_ok] at h
    simpa only [reads] using reads_of_validateAll items h.2.2
  | not inner =>
    rw [validate, invalid, Result.guard_eq_ok] at h
    simpa only [reads] using reads_of_validate inner h.2

/-- Checks that validate read columns that are there. -/
theorem reads_of_validateAll (items : List CheckExpr) {depth : Nat}
    (h : validateAll d depth items = .ok ()) :
    ∀ col ∈ readsAll items, (d.colIndex col).isSome := by
  cases items with
  | nil =>
    intro col hcol
    simp [readsAll] at hcol
  | cons item items =>
    rw [validateAll] at h
    obtain ⟨⟨⟩, hitem, hrest⟩ := Result.bind_eq_ok.1 h
    intro col hcol
    rw [readsAll, List.mem_append] at hcol
    rcases hcol with hcol | hcol
    · exact reads_of_validate item hitem col hcol
    · exact reads_of_validateAll items hrest col hcol

end

end Validate

end CheckExpr

/-! ## Definitions -/

/-- What validation asks of a column on its own. -/
structure ColumnDef.WellFormed (col : ColumnDef) : Prop where
  autoIncrement : col.autoIncrement = true → col.kind = .i64
  rowversion : col.rowversion = true → col.kind = .i64
  onUpdateNow : col.onUpdateNow = true → col.kind = .timestamp
  default : defaultFits col = .ok ()

/-- What a foreign key needs of the table it belongs to. -/
structure ForeignKey.WellFormed (d : TableDef) (fk : ForeignKey) : Prop where
  length : fk.columns.length = fk.parentColumns.length
  columns : ∀ name ∈ fk.columns, (d.colIndex name).isSome
  distinct : fk.columns.Nodup
  nullable : TableDef.setsNull fk = true →
    ∀ name ∈ fk.columns, ∀ i, d.colIndex name = some i → d.isNullable i = true

/-- What a validated definition satisfies. -/
structure TableDef.WellFormed (d : TableDef) : Prop where
  distinct : d.columns.Pairwise (fun a b => a.name ≠ b.name)
  columns : ∀ col ∈ d.columns, col.WellFormed
  pk : ∀ name ∈ d.pk, ∃ col ∈ d.columns, col.name = name ∧ col.rowversion = false ∧
    col.kind ≠ .json
  checks : ∀ check ∈ d.checks, ∀ col ∈ check.reads, (d.colIndex col).isSome
  indexNames : d.indexes.Pairwise (fun a b => a.name ≠ b.name)
  indexColumns : ∀ idx ∈ d.indexes, ∀ name ∈ idx.columns, (d.colIndex name).isSome
  foreignKeys : ∀ fk ∈ d.foreignKeys, fk.WellFormed d

namespace TableDef

variable {d : TableDef}

/-- A column that validates has a name of its own and is well formed. -/
theorem validateColumn_eq_ok {before : List ColumnDef} {col : ColumnDef}
    (h : validateColumn before col = .ok ()) :
    (∀ c ∈ before, c.name ≠ col.name) ∧ col.WellFormed := by
  unfold validateColumn at h
  simp only [invalid, Result.error_bind, Result.guard_eq_ok] at h
  obtain ⟨-, hname, hauto, hversion, -, hnow, hdefault⟩ := h
  refine ⟨?_, ?_, ?_, ?_, hdefault⟩
  · simpa using hname
  · intro hc
    simpa [hc] using hauto
  · intro hc
    simpa [hc] using hversion
  · intro hc
    simpa [hc] using hnow

/-- A key column that validates is there, and neither a rowversion nor JSON. -/
theorem validatePk_eq_ok {before : List String} {name : String}
    (h : validatePk d before name = .ok ()) :
    ∃ col ∈ d.columns, col.name = name ∧ col.rowversion = false ∧ col.kind ≠ .json := by
  unfold validatePk at h
  simp only [invalid, Result.error_bind, Result.guard_eq_ok] at h
  obtain ⟨-, h⟩ := h
  obtain ⟨col, hcol, h⟩ := Result.bind_eq_ok.1 h
  obtain ⟨hmem, hname⟩ := columnOf_eq_ok hcol
  simp only [Result.guard_eq_ok] at h
  exact ⟨col, hmem, hname, by simpa using h.2.1, h.1⟩

theorem validateIndexColumn_eq_ok {before : List String} {name : String}
    (h : validateIndexColumn d before name = .ok ()) : (d.colIndex name).isSome := by
  unfold validateIndexColumn at h
  simp only [invalid, Result.error_bind, Result.guard_eq_ok] at h
  obtain ⟨col, hcol, -⟩ := Result.bind_eq_ok.1 h.2
  obtain ⟨hmem, rfl⟩ := columnOf_eq_ok hcol
  exact Option.isSome_iff_exists.2 (colIndex_of_mem hmem)

/-- An index that validates has a name of its own and columns that are there. -/
theorem validateIndex_eq_ok {before : List IndexDef} {index : IndexDef}
    (h : validateIndex d before index = .ok ()) :
    (∀ i ∈ before, i.name ≠ index.name) ∧ ∀ name ∈ index.columns, (d.colIndex name).isSome := by
  unfold validateIndex at h
  simp only [invalid, Result.error_bind, Result.guard_eq_ok] at h
  obtain ⟨-, hname, -, hcols⟩ := h
  constructor
  · simpa using hname
  · intro name hmem
    obtain ⟨before', hcheck⟩ := eachAfter_forall hcols name hmem
    exact validateIndexColumn_eq_ok hcheck

/-- A column of a foreign key is there once, and nullable where an action nulls it. -/
theorem validateFkColumn_eq_ok {fk : ForeignKey} {before : List String} {name : String}
    (h : validateFkColumn d fk before name = .ok ()) :
    (∀ n ∈ before, n ≠ name) ∧ (d.colIndex name).isSome ∧
      (setsNull fk = true → ∀ i, d.colIndex name = some i → d.isNullable i = true) := by
  unfold validateFkColumn at h
  simp only [invalid, Result.error_bind, Result.guard_eq_ok] at h
  obtain ⟨hbefore, h⟩ := h
  obtain ⟨col, hcol, h⟩ := Result.bind_eq_ok.1 h
  obtain ⟨hmem, rfl⟩ := columnOf_eq_ok hcol
  refine ⟨?_, Option.isSome_iff_exists.2 (colIndex_of_mem hmem), ?_⟩
  · intro n hn hnc
    subst hnc
    simp [hn] at hbefore
  · intro hnull i hi
    simp only [Result.guard_eq_ok] at h
    simpa [hnull, hi] using h.1

/-- A foreign key that validates is well formed. -/
theorem validateFk_eq_ok {before : List ForeignKey} {fk : ForeignKey}
    (h : validateFk d before fk = .ok ()) : fk.WellFormed d := by
  unfold validateFk at h
  simp only [invalid, Result.error_bind, Result.guard_eq_ok] at h
  obtain ⟨-, -, -, hlen, hcols⟩ := h
  have hcheck := eachAfter_forall hcols
  constructor
  · simpa using hlen
  · intro name hmem
    obtain ⟨before', hname⟩ := hcheck name hmem
    exact (validateFkColumn_eq_ok hname).2.1
  · exact (eachAfter_pairwise hcols (fun _ _ ha => (validateFkColumn_eq_ok ha).1)).1
  · intro hnull name hmem
    obtain ⟨before', hname⟩ := hcheck name hmem
    exact (validateFkColumn_eq_ok hname).2.2 hnull

/-- A definition that validates is well formed. -/
theorem validate_eq_ok (h : d.validate = .ok ()) : d.WellFormed := by
  unfold validate at h
  simp only [invalid, Result.error_bind, Result.guard_eq_ok] at h
  obtain ⟨-, -, h⟩ := h
  obtain ⟨⟨⟩, hcols, h⟩ := Result.bind_eq_ok.1 h
  simp only [Result.guard_eq_ok] at h
  obtain ⟨-, -, -, h⟩ := h
  obtain ⟨⟨⟩, hpk, h⟩ := Result.bind_eq_ok.1 h
  obtain ⟨⟨⟩, hchecks, h⟩ := Result.bind_eq_ok.1 h
  obtain ⟨⟨⟩, hidx, hfks⟩ := Result.bind_eq_ok.1 h
  constructor
  · exact (eachAfter_pairwise hcols (fun _ _ ha => (validateColumn_eq_ok ha).1)).1
  · intro col hcol
    obtain ⟨before, hcheck⟩ := eachAfter_forall hcols col hcol
    exact (validateColumn_eq_ok hcheck).2
  · intro name hname
    obtain ⟨before, hcheck⟩ := eachAfter_forall hpk name hname
    exact validatePk_eq_ok hcheck
  · intro check hcheck col hcol
    exact CheckExpr.reads_of_validateAll d.checks hchecks col
      (CheckExpr.mem_readsAll hcheck hcol)
  · exact (eachAfter_pairwise hidx (fun _ _ ha => (validateIndex_eq_ok ha).1)).1
  · intro idx hmem
    obtain ⟨before, hcheck⟩ := eachAfter_forall hidx idx hmem
    exact (validateIndex_eq_ok hcheck).2
  · intro fk hfk
    obtain ⟨before, hcheck⟩ := eachAfter_forall hfks fk hfk
    exact validateFk_eq_ok hcheck

/-- Dropping an index keeps a definition well formed. -/
theorem WellFormed.eraseIndex (h : d.WellFormed) (pos : Nat) :
    { d with indexes := d.indexes.eraseIdx pos }.WellFormed := by
  have hsub := List.eraseIdx_sublist d.indexes pos
  refine ⟨h.distinct, h.columns, h.pk, h.checks, h.indexNames.sublist hsub, ?_, ?_⟩
  · intro idx hidx
    exact h.indexColumns idx (hsub.subset hidx)
  · intro fk hfk
    have hw := h.foreignKeys fk hfk
    exact ⟨hw.length, hw.columns, hw.distinct, hw.nullable⟩

end TableDef

end Edb.Catalog
