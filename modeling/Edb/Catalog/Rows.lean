import Edb.Catalog.State

/-!
# Building and changing rows

A row is materialised from the provided columns, defaults and generated values, and type
checked cell by cell; an update is applied to a copy of the old row and then the
engine-managed columns are stepped.
-/

namespace Edb.Catalog

open Edb.Types Edb.Lib

/-- The host services a statement reads: a clock and a uuid generator, by the row and the
column the reading is for. -/
structure Env where
  now : Nat → Nat → Int64
  uuid : Nat → Nat → Vector UInt8 16

/-- `i64::saturating_add(1)`. -/
def nextI64 (v : Int64) : Int64 := if v = Int64.maxValue then v else v + 1

/-- NOT NULL and declared-type check for one cell. -/
def checkCellType (table : String) (def_ : TableDef) (ci : Nat) (value : Value) :
    CatResult Unit :=
  match def_.columns[ci]? with
  | none => .ok ()
  | some col =>
    match value.kind with
    | none => require (def_.isNullable ci) (.notNull table col.name)
    | some kind =>
      if kind ≠ col.kind then .error (.typeMismatch table col.name col.kind kind)
      else
        match value with
        | .json doc => ofType (validateJson doc)
        | _ => .ok ()

/-- Evaluate every CHECK; violated only when one is definitively false. -/
def runChecksFrom (def_ : TableDef) (row : List Value) : Nat → List CheckExpr → CatResult Unit
  | _, [] => .ok ()
  | index, check :: checks =>
    if check.eval def_ row = some false then .error (.checkViolation def_.name index)
    else runChecksFrom def_ row (index + 1) checks

def runChecks (def_ : TableDef) (row : List Value) : CatResult Unit :=
  runChecksFrom def_ row 0 def_.checks

/-- Put the provided values into their columns. -/
def provide (def_ : TableDef) :
    List (Option Value) → List (String × Value) → CatResult (List (Option Value))
  | cells, [] => .ok cells
  | cells, (name, value) :: rest =>
    match def_.colIndex name with
    | none => .error (.unknownColumn def_.name name)
    | some ci =>
      if def_.columns[ci]?.any (fun c => c.rowversion || c.onUpdateNow) then
        .error (.engineManagedColumn name)
      else if (cells[ci]?.getD none).isSome then .error (.duplicateColumn name)
      else provide def_ (cells.set ci (some value)) rest

/-- The value of a column nothing was provided for, and the sequence after it. -/
def generate (env : Env) (ordinal ci : Nat) (col : ColumnDef) (seq : Int64) : Value × Int64 :=
  if col.autoIncrement then (.i64 seq, nextI64 seq)
  else if col.rowversion then (.i64 1, seq)
  else if col.onUpdateNow then (.timestamp (env.now ordinal ci), seq)
  else
    match col.default with
    | some (.value v) => (v, seq)
    | some .now => (.timestamp (env.now ordinal ci), seq)
    | some .uuidV7 => (.uuid (env.uuid ordinal ci), seq)
    | none => (.null, seq)

/-- An explicit key moves the sequence past it. -/
def advance (col : ColumnDef) (value : Value) (seq : Int64) : Int64 :=
  if col.autoIncrement then
    match value with
    | .i64 n => max seq (nextI64 n)
    | _ => seq
  else seq

/-- The cell of a column, and the sequence after it. -/
def fill (env : Env) (ordinal ci : Nat) (col : ColumnDef) (cell : Option Value) (seq : Int64) :
    Value × Int64 :=
  match cell with
  | some value => (value, advance col value seq)
  | none => generate env ordinal ci col seq

/-- The cells from a column on, each type checked. -/
def buildCells (env : Env) (ordinal : Nat) (def_ : TableDef) (cells : List (Option Value)) :
    Nat → List ColumnDef → Int64 → CatResult (List Value × Int64)
  | _, [], seq => .ok ([], seq)
  | ci, col :: cols, seq => do
    let (cell, seq) := fill env ordinal ci col (cells[ci]?.getD none) seq
    checkCellType def_.name def_ ci cell
    let (row, seq) ← buildCells env ordinal def_ cells (ci + 1) cols seq
    pure (cell :: row, seq)

/-- Materialise a full row from the provided columns. -/
def buildRow (env : Env) (ordinal : Nat) (def_ : TableDef) (provided : List (String × Value))
    (seq : Int64) : CatResult (List Value × Int64) := do
  let cells ← provide def_ (List.replicate def_.columns.length none) provided
  buildCells env ordinal def_ cells 0 def_.columns seq

/-- The primary-key cells of a full row. -/
def pkCells (def_ : TableDef) (row : List Value) : List Value :=
  def_.pk.filterMap (fun name => (def_.colIndex name).map (fun ci => row.getD ci .null))

/-- The encoded primary key of a full row. -/
def pkKeyOf (def_ : TableDef) (row : List Value) : CatResult Bytes :=
  ofType (encodeKey (pkCells def_ row))

/-- Check caller-supplied primary-key values. -/
def checkPkValues (table : String) (def_ : TableDef) : List (String × Value) → CatResult Unit
  | [] => .ok ()
  | (name, value) :: rest => do
    match def_.colIndex name with
    | some ci => checkCellType table def_ ci value
    | none => .ok ()
    checkPkValues table def_ rest

/-- Validate caller-supplied primary-key values and encode them. -/
def encodePk (table : String) (def_ : TableDef) (pk : List Value) : CatResult Bytes := do
  require (pk.length = def_.pk.length)
    (.invalidSchema ("primary key takes " ++ toString def_.pk.length ++ " value(s), got "
      ++ toString pk.length))
  checkPkValues table def_ (def_.pk.zip pk)
  ofType (encodeKey pk)

/-- Apply an absolute set list to a row. -/
def applySets (table : String) (def_ : TableDef) :
    List Value → List (String × Value) → CatResult (List Value)
  | row, [] => .ok row
  | row, (name, value) :: rest =>
    match def_.colIndex name with
    | none => .error (.unknownColumn table name)
    | some ci =>
      if def_.isPk ci then .error (.pkImmutable name)
      else if def_.columns[ci]?.any (fun c => c.rowversion || c.onUpdateNow) then
        .error (.engineManagedColumn name)
      else do
        checkCellType table def_ ci value
        applySets table def_ (row.set ci value) rest

/-- The value after a rowversion. -/
def nextVersion : Option Value → Value
  | some (.i64 v) => .i64 (nextI64 v)
  | _ => .i64 1

/-- Step one engine-managed cell. -/
def stepCell (now : Int64) (col : ColumnDef) (cell : Value) : Value :=
  let cell := if col.rowversion then nextVersion (some cell) else cell
  if col.onUpdateNow then .timestamp now else cell

/-- Step the engine-managed columns. -/
def stepManaged (now : Int64) (def_ : TableDef) (row : List Value) : List Value :=
  List.zipWith (stepCell now) def_.columns row

/-- Apply an absolute set list to a copy of a row, then step the engine-managed columns. -/
def transformRow (now : Int64) (table : String) (def_ : TableDef) (oldRow : List Value)
    (sets : List (String × Value)) : CatResult (List Value) := do
  let row ← applySets table def_ oldRow sets
  pure (stepManaged now def_ row)

end Edb.Catalog
