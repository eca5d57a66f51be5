import Edb.Catalog.Define

/-!
# Stored table definitions

The versioned binary form a definition has in the catalog tree: length prefixes everywhere,
embedded literals in the row encoding.
-/

namespace Edb.Catalog

open Edb.Types

namespace Codec

def version : UInt8 := 1

/-- A `u16` little-endian count. -/
def pushCount (n : Nat) : CatResult Bytes :=
  if n < 2 ^ 16 then .ok (toLeBytes 2 n)
  else .error (.invalidSchema "definition is too large to encode")

/-- Append the encodings of a list's elements. -/
def pushAll {α : Type} (push : α → CatResult Bytes) : List α → CatResult Bytes
  | [] => .ok []
  | a :: as => do
    let head ← push a
    let rest ← pushAll push as
    pure (head ++ rest)

/-- A count and the elements. -/
def pushList {α : Type} (push : α → CatResult Bytes) (as : List α) : CatResult Bytes := do
  let count ← pushCount as.length
  let body ← pushAll push as
  pure (count ++ body)

def pushStr (s : String) : CatResult Bytes := do
  let count ← pushCount (asBytes s).length
  pure (count ++ asBytes s)

/-- One literal, in the row encoding. -/
def pushValue (v : Value) : CatResult Bytes := do
  let bytes ← ofType (encodeRow [v])
  let count ← pushCount bytes.length
  pure (count ++ bytes)

def kindCode : TypeKind → UInt8
  | .bool => 1
  | .i64 => 2
  | .f64 => 3
  | .text => 4
  | .blob => 5
  | .uuid => 6
  | .json => 7
  | .timestamp => 8

def actionCode : RefAction → UInt8
  | .restrict => 1
  | .cascade => 2
  | .setNull => 3

def opCode : CmpOp → UInt8
  | .eq => 1
  | .ne => 2
  | .lt => 3
  | .lte => 4
  | .gt => 5
  | .gte => 6

/-- A flag bit, when it is set. -/
def flag (on : Bool) (bit : UInt8) : UInt8 := if on then bit else 0

def columnFlags (col : ColumnDef) : UInt8 :=
  flag col.nullable 1 ||| flag col.unique 2 ||| flag col.autoIncrement 4 |||
    flag col.rowversion 8 ||| flag col.onUpdateNow 16 ||| flag (col.update = .guarded) 32

def pushDefault : Option DefaultSpec → CatResult Bytes
  | none => .ok [0]
  | some (.value v) => do
    let bytes ← pushValue v
    pure (1 :: bytes)
  | some .now => .ok [2]
  | some .uuidV7 => .ok [3]

def pushColumn (col : ColumnDef) : CatResult Bytes := do
  let name ← pushStr col.name
  let default ← pushDefault col.default
  pure (name ++ [kindCode col.kind, columnFlags col] ++ default)

mutual

def pushCheck : CheckExpr → CatResult Bytes
  | .cmp col op value => do
    let name ← pushStr col
    let literal ← pushValue value
    pure ([1] ++ name ++ [opCode op] ++ literal)
  | .isNull col => do
    let name ← pushStr col
    pure (2 :: name)
  | .isNotNull col => do
    let name ← pushStr col
    pure (3 :: name)
  | .and items => do
    let count ← pushCount items.length
    let body ← pushChecks items
    pure ([4] ++ count ++ body)
  | .or items => do
    let count ← pushCount items.length
    let body ← pushChecks items
    pure ([5] ++ count ++ body)
  | .not inner => do
    let body ← pushCheck inner
    pure (6 :: body)

def pushChecks : List CheckExpr → CatResult Bytes
  | [] => .ok []
  | item :: items => do
    let head ← pushCheck item
    let rest ← pushChecks items
    pure (head ++ rest)

end

def pushIndex (index : IndexDef) : CatResult Bytes := do
  let name ← pushStr index.name
  let columns ← pushList pushStr index.columns
  pure (name ++ [flag index.unique 1] ++ columns)

def pushFk (fk : ForeignKey) : CatResult Bytes := do
  let name ← pushStr fk.name
  let columns ← pushList pushStr fk.columns
  let parent ← pushStr fk.parent
  let parentColumns ← pushList pushStr fk.parentColumns
  pure (name ++ columns ++ parent ++ parentColumns ++ [actionCode fk.onDelete,
    actionCode fk.onUpdate])

end Codec

open Codec in
/-- Encode a table definition for storage. -/
def encodeTable (def_ : TableDef) : CatResult Bytes := do
  let name ← pushStr def_.name
  let columns ← pushList pushColumn def_.columns
  let pk ← pushList pushStr def_.pk
  let checkCount ← pushCount def_.checks.length
  let checks ← pushChecks def_.checks
  let indexes ← pushList pushIndex def_.indexes
  let foreignKeys ← pushList pushFk def_.foreignKeys
  pure ([version] ++ name ++ columns ++ pk ++ checkCount ++ checks ++ indexes ++ foreignKeys)

end Edb.Catalog
