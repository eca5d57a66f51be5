import Edb.Common.Basic
import Edb.Types.Row
import Edb.Types.Msgpack

/-!
# The schema model

Tables, columns, constraints, defaults, indexes and foreign keys, with the rules a
definition is checked against before it is persisted.
-/

namespace Edb.Catalog

open Edb.Types

/-- Per-column update policy. -/
inductive UpdatePolicy where
  | free
  | guarded
  deriving DecidableEq, Repr

/-- A column default: a constant or a generator. -/
inductive DefaultSpec where
  | value (v : Value)
  | now
  | uuidV7
  deriving DecidableEq, Repr

/-- One column definition. -/
structure ColumnDef where
  name : String
  kind : TypeKind
  nullable : Bool
  unique : Bool
  default : Option DefaultSpec
  autoIncrement : Bool
  rowversion : Bool
  onUpdateNow : Bool
  update : UpdatePolicy
  deriving DecidableEq, Repr

/-- A plain nullable column of a kind, free and without constraints. -/
def ColumnDef.new (name : String) (kind : TypeKind) : ColumnDef :=
  { name, kind, nullable := true, unique := false, default := none, autoIncrement := false,
    rowversion := false, onUpdateNow := false, update := .free }

/-- A comparison operator of a check. -/
inductive CmpOp where
  | eq
  | ne
  | lt
  | lte
  | gt
  | gte
  deriving DecidableEq, Repr

/-- A CHECK expression over the row. -/
inductive CheckExpr where
  | cmp (col : String) (op : CmpOp) (value : Value)
  | isNull (col : String)
  | isNotNull (col : String)
  | and (items : List CheckExpr)
  | or (items : List CheckExpr)
  | not (inner : CheckExpr)
  deriving Repr

/-- The deepest CHECK nesting accepted. -/
def maxCheckDepth : Nat := 16

/-- One secondary-index definition. -/
structure IndexDef where
  name : String
  columns : List String
  unique : Bool
  deriving DecidableEq, Repr

/-- The name of the index backing a `unique` column. -/
def implicitIndexName (table column : String) : String := "uniq_" ++ table ++ "_" ++ column

/-- What happens to referencing rows when the referenced key is deleted or changed. -/
inductive RefAction where
  | restrict
  | cascade
  | setNull
  deriving DecidableEq, Repr

/-- A foreign-key constraint. -/
structure ForeignKey where
  name : String
  columns : List String
  parent : String
  parentColumns : List String
  onDelete : RefAction
  onUpdate : RefAction
  deriving DecidableEq, Repr

/-- One table definition. -/
structure TableDef where
  name : String
  columns : List ColumnDef
  pk : List String
  checks : List CheckExpr
  indexes : List IndexDef
  foreignKeys : List ForeignKey
  deriving Repr

/-- How stored catalog bytes can be malformed. -/
inductive CatalogCorruption where
  | truncated
  | badVersion (version : UInt8)
  | badTag (tag : UInt8)
  | badValue
  | invalidUtf8
  | depthExceeded
  | trailingBytes
  | missingEntry
  | rowWiderThanSchema
  deriving DecidableEq, Repr

/-- Errors of the catalog layer. A policy's own error is kept by its category, which is all
the writer reads of it. -/
inductive CatalogError where
  | type (err : TypeError)
  | corrupt (kind : CatalogCorruption)
  | invalidSchema (reason : String)
  | tableExists (table : String)
  | unknownTable (table : String)
  | unknownColumn (table column : String)
  | duplicateColumn (column : String)
  | engineManagedColumn (column : String)
  | pkImmutable (column : String)
  | rowNotFound (table : String)
  | notNull (table column : String)
  | typeMismatch (table column : String) (expected found : TypeKind)
  | duplicateKey (table : String)
  | uniqueViolation (table index : String)
  | indexExists (table index : String)
  | unknownIndex (table index : String)
  | indexOutOfSync (table index : String)
  | checkViolation (table : String) (index : Nat)
  | foreignKeyViolation (table constraint : String)
  | referencedByChildren (table constraint : String)
  | tableReferenced (table by_ constraint : String)
  | policy (category : ErrorCategory)
  deriving DecidableEq, Repr

abbrev CatResult := Except CatalogError

/-- Errors of the encoding layer are passed through. -/
def ofType {α : Type} : Except TypeError α → CatResult α
  | .ok a => .ok a
  | .error e => .error (.type e)

@[simp] theorem ofType_eq_ok {α : Type} {x : Except TypeError α} {a : α} :
    ofType x = .ok a ↔ x = .ok a := by
  cases x <;> simp [ofType]

/-! ## Lookups -/

namespace TableDef

/-- The position of an index. -/
def indexPos (def_ : TableDef) (index : String) : Option Nat :=
  def_.indexes.findIdx? (fun i => i.name == index)

/-- The position of a column. -/
def colIndex (def_ : TableDef) (column : String) : Option Nat :=
  def_.columns.findIdx? (fun c => c.name == column)

/-- Whether a column is part of the primary key. -/
def isPk (def_ : TableDef) (index : Nat) : Bool :=
  def_.columns[index]?.any (fun c => def_.pk.contains c.name)

/-- Whether a column may hold NULL. -/
def isNullable (def_ : TableDef) (index : Nat) : Bool :=
  def_.columns[index]?.any (fun c => c.nullable && !def_.isPk index)

/-- Whether an index is the implicit backing of a `unique` column. -/
def backsUniqueColumn (def_ : TableDef) (index : IndexDef) : Bool :=
  index.unique && index.columns.length == 1 &&
    index.columns.head?.any (fun col =>
      index.name == implicitIndexName def_.name col &&
        def_.columns.any (fun c => c.name == col && c.unique))

end TableDef

/-- What a row written before the column was added holds in it: the constant default, if
there is one. -/
def ColumnDef.padding (col : ColumnDef) : Value :=
  match col.default with
  | some (.value v) => v
  | _ => .null

/-- Decode a stored row and pad the columns added after it was written. -/
def decodePadded (def_ : TableDef) (bytes : Bytes) : CatResult (List Value) := do
  let row ← ofType (decodeRow bytes)
  if row.length > def_.columns.length then .error (.corrupt .rowWiderThanSchema)
  else pure (row ++ (def_.columns.drop row.length).map ColumnDef.padding)

end Edb.Catalog
