import Edb.Catalog.Index

/-!
# Definition-time rules

What a table definition has to satisfy before it is persisted, the implicit indexes behind
`unique` columns, and the three-valued evaluation of CHECK expressions.
-/

namespace Edb.Catalog

open Edb.Types

def invalid {α : Type} (reason : String) : CatResult α := .error (.invalidSchema reason)

/-- Fail with an error unless a condition holds. -/
def require (cond : Bool) (e : CatalogError) : CatResult Unit := if cond then .ok () else .error e

/-! ## CHECK expressions -/

/-- The truth of an operator over an order. -/
def CmpOp.holds : CmpOp → Ordering → Bool
  | .eq, ord => ord.isEq
  | .ne, ord => ord.isNe
  | .lt, ord => ord.isLT
  | .lte, ord => ord.isLE
  | .gt, ord => ord.isGT
  | .gte, ord => ord.isGE

namespace CheckExpr

/-- The cell of a named column. -/
def cell (def_ : TableDef) (row : List Value) (col : String) : Option Value :=
  (def_.colIndex col).bind (fun i => row[i]?)

mutual

/-- Evaluate against a full row; `none` is unknown. -/
def eval (def_ : TableDef) (row : List Value) : CheckExpr → Option Bool
  | .cmp col op value =>
    (cell def_ row col).bind (fun v =>
      if v.isNull then none else some (op.holds (v.logicalCmp value)))
  | .isNull col => (cell def_ row col).map Value.isNull
  | .isNotNull col => (cell def_ row col).map (fun v => !v.isNull)
  | .and items => evalAnd def_ row false items
  | .or items => evalOr def_ row false items
  | .not inner => (eval def_ row inner).map (fun b => !b)

/-- False dominates, then unknown. -/
def evalAnd (def_ : TableDef) (row : List Value) (unknown : Bool) : List CheckExpr → Option Bool
  | [] => if unknown then none else some true
  | item :: items =>
    match eval def_ row item with
    | some false => some false
    | none => evalAnd def_ row true items
    | some true => evalAnd def_ row unknown items

/-- True dominates, then unknown. -/
def evalOr (def_ : TableDef) (row : List Value) (unknown : Bool) : List CheckExpr → Option Bool
  | [] => if unknown then none else some false
  | item :: items =>
    match eval def_ row item with
    | some true => some true
    | none => evalOr def_ row true items
    | some false => evalOr def_ row unknown items

end

/-- The definition of a named column, or `UnknownColumn`. -/
def columnOf (def_ : TableDef) (col : String) : CatResult ColumnDef :=
  match def_.columns.find? (fun c => c.name == col) with
  | some column => .ok column
  | none => .error (.unknownColumn def_.name col)

/-- A literal of the column's kind. -/
def literalFits (column : ColumnDef) (value : Value) : CatResult Unit :=
  match value.kind with
  | none => invalid "check comparisons against null never hold; use is_null"
  | some kind =>
    if kind ≠ column.kind then invalid "check literal kind does not match the column's type"
    else .ok ()

mutual

/-- Validate an expression at a nesting depth. -/
def validate (def_ : TableDef) (depth : Nat) : CheckExpr → CatResult Unit
  | .cmp col _ value =>
    if depth > maxCheckDepth then invalid "check expression nests too deeply"
    else do
      let column ← columnOf def_ col
      literalFits column value
  | .isNull col =>
    if depth > maxCheckDepth then invalid "check expression nests too deeply"
    else require (def_.colIndex col).isSome (.unknownColumn def_.name col)
  | .isNotNull col =>
    if depth > maxCheckDepth then invalid "check expression nests too deeply"
    else require (def_.colIndex col).isSome (.unknownColumn def_.name col)
  | .and items =>
    if depth > maxCheckDepth then invalid "check expression nests too deeply"
    else if items.isEmpty then invalid "empty boolean combinator in check"
    else validateAll def_ (depth + 1) items
  | .or items =>
    if depth > maxCheckDepth then invalid "check expression nests too deeply"
    else if items.isEmpty then invalid "empty boolean combinator in check"
    else validateAll def_ (depth + 1) items
  | .not inner =>
    if depth > maxCheckDepth then invalid "check expression nests too deeply"
    else validate def_ (depth + 1) inner

def validateAll (def_ : TableDef) (depth : Nat) : List CheckExpr → CatResult Unit
  | [] => .ok ()
  | item :: items => do
    validate def_ depth item
    validateAll def_ depth items

end

end CheckExpr

/-! ## Table definitions -/

/-- Check every element of a list, given the elements before it. -/
def eachAfter {α : Type} (check : List α → α → CatResult Unit) :
    List α → List α → CatResult Unit
  | _, [] => .ok ()
  | before, a :: rest => do
    check before a
    eachAfter check (before ++ [a]) rest

/-- A default of the column's kind, or a generator for it. -/
def defaultFits (col : ColumnDef) : CatResult Unit :=
  match col.default with
  | some .now =>
    if col.kind ≠ .timestamp then invalid "default now requires a timestamp column" else .ok ()
  | some .uuidV7 =>
    if col.kind ≠ .uuid then invalid "default uuid_v7 requires a uuid column" else .ok ()
  | some (.value v) =>
    match v.kind with
    | none => if !col.nullable then invalid "default null on a not-null column" else .ok ()
    | some kind =>
      if kind ≠ col.kind then invalid "default value kind does not match the column"
      else
        match v with
        | .json doc => ofType (validateJson doc)
        | _ => .ok ()
  | none => .ok ()

namespace TableDef

/-- The rules for one column, given the columns before it. -/
def validateColumn (before : List ColumnDef) (col : ColumnDef) : CatResult Unit := do
  if col.name.isEmpty then invalid "column names must not be empty"
  if before.any (fun c => c.name == col.name) then invalid "duplicate column name"
  if col.autoIncrement && col.kind ≠ .i64 then invalid "auto_increment requires an i64 column"
  if col.rowversion && col.kind ≠ .i64 then invalid "rowversion requires an i64 column"
  if col.rowversion && (col.autoIncrement || col.default.isSome || col.onUpdateNow) then
    invalid "a rowversion column is engine-managed only"
  if col.onUpdateNow && col.kind ≠ .timestamp then
    invalid "on_update: now requires a timestamp column"
  defaultFits col

/-- The rules for one primary-key column. -/
def validatePk (def_ : TableDef) (before : List String) (name : String) : CatResult Unit := do
  if before.contains name then invalid "duplicate primary-key column"
  let col ← CheckExpr.columnOf def_ name
  if col.kind = .json then invalid "json columns cannot be key components"
  if col.rowversion then invalid "a rowversion column cannot be a primary key"

/-- The rules for one column of an index. -/
def validateIndexColumn (def_ : TableDef) (before : List String) (name : String) :
    CatResult Unit := do
  if before.contains name then invalid "duplicate column within an index"
  let col ← CheckExpr.columnOf def_ name
  if col.kind = .json then invalid "json columns cannot be indexed"

def validateIndex (def_ : TableDef) (before : List IndexDef) (index : IndexDef) :
    CatResult Unit := do
  if index.name.isEmpty then invalid "index names must not be empty"
  if before.any (fun x => x.name == index.name) then invalid "duplicate index name"
  if index.columns.isEmpty then invalid "an index needs at least one column"
  eachAfter (validateIndexColumn def_) [] index.columns

/-- Whether either action of a foreign key sets its columns to null. -/
def setsNull (fk : ForeignKey) : Bool := fk.onDelete = .setNull || fk.onUpdate = .setNull

/-- The rules for one referencing column. -/
def validateFkColumn (def_ : TableDef) (fk : ForeignKey) (before : List String) (name : String) :
    CatResult Unit := do
  if before.contains name then invalid "duplicate column within a foreign key"
  let _ ← CheckExpr.columnOf def_ name
  if setsNull fk && !(def_.colIndex name).any def_.isNullable then
    invalid "a set-null foreign key requires nullable referencing columns"

def validateFk (def_ : TableDef) (before : List ForeignKey) (fk : ForeignKey) :
    CatResult Unit := do
  if fk.name.isEmpty then invalid "foreign-key names must not be empty"
  if before.any (fun f => f.name == fk.name) then invalid "duplicate foreign-key name"
  if fk.columns.isEmpty then invalid "a foreign key needs at least one column"
  if fk.columns.length ≠ fk.parentColumns.length then
    invalid "foreign-key column count must match the referenced column count"
  eachAfter (validateFkColumn def_ fk) [] fk.columns

/-- Validate a definition. -/
def validate (def_ : TableDef) : CatResult Unit := do
  if def_.name.isEmpty then invalid "table name must not be empty"
  if def_.columns.isEmpty then invalid "a table needs at least one column"
  eachAfter validateColumn [] def_.columns
  if def_.columns.countP (fun c => c.autoIncrement) > 1 then
    invalid "at most one auto_increment column per table"
  if def_.columns.countP (fun c => c.rowversion) > 1 then
    invalid "at most one rowversion column per table"
  if def_.pk.isEmpty then invalid "every table requires a primary key"
  eachAfter (validatePk def_) [] def_.pk
  CheckExpr.validateAll def_ 0 def_.checks
  eachAfter (validateIndex def_) [] def_.indexes
  eachAfter (validateFk def_) [] def_.foreignKeys

/-- The implicit index of a `unique` column. -/
def implicitIndex (def_ : TableDef) (col : ColumnDef) : IndexDef :=
  ⟨implicitIndexName def_.name col.name, [col.name], true⟩

/-- The implicit indexes whose names are not taken. -/
def neededIndexes (def_ : TableDef) : List IndexDef :=
  ((def_.columns.filter (fun c => c.unique)).map def_.implicitIndex).filter
    (fun idx => (def_.indexPos idx.name).isNone)

/-- Append the implicit unique index of every `unique` column that does not have one by that
name. -/
def materializeImplicitIndexes (def_ : TableDef) : TableDef :=
  { def_ with indexes := def_.indexes ++ def_.neededIndexes }

end TableDef

end Edb.Catalog
