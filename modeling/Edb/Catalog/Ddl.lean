import Edb.Catalog.State

/-!
# Definition jobs

Creating and dropping tables and indexes, and adding columns. Every check is made before the
first entry is written.
-/

namespace Edb.Catalog

open Edb.Types Edb.Lib

/-! ## Foreign keys of a definition -/

/-- The kind of a named column. -/
def TableDef.kindOf (def_ : TableDef) (column : String) : Option TypeKind :=
  ((def_.colIndex column).bind (fun i => def_.columns[i]?)).map ColumnDef.kind

/-- Whether columns are a table's primary key or those of one of its unique indexes. -/
def TableDef.isKey (def_ : TableDef) (columns : List String) : Bool :=
  def_.pk = columns || def_.indexes.any (fun idx => idx.unique && idx.columns = columns)

/-- Whether a child column and the parent column it refers to are of one kind. -/
def kindsMatch (child parent : TableDef) (columns : String × String) : Bool :=
  (child.kindOf columns.1).any (fun a => (parent.kindOf columns.2).any (fun b => a = b))

/-- The table a foreign key refers to; a self-reference resolves to the definition itself. -/
def fkParent (s : CatState) (def_ : TableDef) (fk : ForeignKey) : CatResult TableDef :=
  if fk.parent = def_.name then .ok def_
  else okOr (.invalidSchema ("foreign key \"" ++ fk.name ++ "\" references unknown table \""
    ++ fk.parent ++ "\"")) ((OrdMap.find fk.parent s.tables).map TableImage.def_)

/-- The cross-table checks of one foreign key. -/
def validateFkOf (s : CatState) (def_ : TableDef) (fk : ForeignKey) : CatResult Unit := do
  require (!(fk.onUpdate = .cascade && fk.columns.any def_.pk.contains))
    (.invalidSchema ("foreign key \"" ++ fk.name
      ++ "\": on_update CASCADE cannot move a primary-key column"))
  let parent ← fkParent s def_ fk
  require (parent.isKey fk.parentColumns)
    (.invalidSchema ("foreign key \"" ++ fk.name
      ++ "\" must reference the parent's primary key or a unique index"))
  require ((fk.columns.zip fk.parentColumns).all (kindsMatch def_ parent))
    (.invalidSchema ("foreign key \"" ++ fk.name
      ++ "\" column types do not match the referenced columns"))

/-- The cross-table checks of every foreign key. -/
def validateFks (s : CatState) (def_ : TableDef) : CatResult Unit :=
  def_.foreignKeys.forM (validateFkOf s def_)

/-! ## Jobs -/

/-- Empty trees for the indexes of a new table. -/
def emptyIndexes (indexes : List IndexDef) : List (String × TreeContents) :=
  indexes.foldl (fun trees idx => OrdMap.insert idx.name [] trees) []

/-- The table is not there yet. -/
def checkFresh (s : CatState) (table : String) : CatResult Unit :=
  require (OrdMap.find table s.tables).isNone (.tableExists table)

def createTable (s : CatState) (def_ : TableDef) : JobResult CatState := do
  let def_ := def_.materializeImplicitIndexes
  rej def_.validate
  rej (validateFks s def_)
  rej (checkFresh s def_.name)
  defFits def_
  wordFits "root" [def_.name]
  def_.indexes.forM (fun idx => wordFits "iroot" [def_.name, idx.name])
  let s := s.store def_.name ⟨def_, [], emptyIndexes def_.indexes⟩
  if def_.columns.any (fun c => c.autoIncrement) then do
    wordFits "seq" [def_.name]
    pure (s.storeSeq def_.name 1)
  else pure s

/-- The foreign keys by which another table refers to a table, with that table's name. -/
def referencing (s : CatState) (table : String) : List (String × ForeignKey) :=
  (s.allTables.filter (fun other => other.name ≠ table)).flatMap (fun other =>
    (other.foreignKeys.filter (fun fk => fk.parent = table)).map (fun fk => (other.name, fk)))

/-- No other table refers to the table. -/
def checkUnreferenced (s : CatState) (table : String) : CatResult Unit :=
  match (referencing s table).head? with
  | some (other, fk) => .error (.tableReferenced table other fk.name)
  | none => .ok ()

def dropTable (s : CatState) (table : String) : JobResult CatState := do
  let _ ← s.load table
  rej (checkUnreferenced s table)
  pure ⟨OrdMap.erase table s.tables, OrdMap.erase table s.seqs⟩

/-- Whether an added column reads as something in the rows already there. -/
def backfillable (column : ColumnDef) : Bool :=
  column.nullable || column.default.any (fun d =>
    match d with
    | .value _ => true
    | _ => false)

/-- The indexes an added column brings, with their entries over the existing rows. -/
def computeBackfills (def_ : TableDef) (data : TreeContents) :
    List IndexDef → JobResult (List (IndexDef × List Entry))
  | [] => .ok []
  | idx :: idxs => do
    let entries ← computeBackfill def_ idx [] data
    let rest ← computeBackfills def_ data idxs
    pure ((idx, entries) :: rest)

def addColumn (s : CatState) (table : String) (column : ColumnDef) : JobResult CatState := do
  let image ← s.load table
  rej (require (image.def_.colIndex column.name).isNone
    (.invalidSchema "a column with that name already exists"))
  rej (require (backfillable column)
    (.invalidSchema "an added column must be nullable or carry a constant default"))
  let wider := { image.def_ with columns := image.def_.columns ++ [column] }
  let def_ := wider.materializeImplicitIndexes
  rej def_.validate
  defFits def_
  let backfills ← computeBackfills def_ image.data wider.neededIndexes
  let image ← backfills.foldlM (fun image b => applyBackfill image b.1 b.2) { image with def_ }
  pure (s.store table image)

def createIndex (s : CatState) (table : String) (index : IndexDef) : JobResult CatState := do
  let image ← s.load table
  rej (require (image.def_.indexPos index.name).isNone (.indexExists table index.name))
  let def_ := { image.def_ with indexes := image.def_.indexes ++ [index] }
  rej def_.validate
  defFits def_
  let entries ← computeBackfill def_ index [] image.data
  let image ← applyBackfill { image with def_ } index entries
  pure (s.store table image)

/-- The position of an index that may be dropped: it exists and backs no `unique` column. -/
def droppable (table : String) (def_ : TableDef) (index : String) : CatResult Nat := do
  let pos ← okOr (.unknownIndex table index) (def_.indexPos index)
  require (!def_.indexes[pos]?.any def_.backsUniqueColumn)
    (.invalidSchema "this index enforces a unique column and cannot be dropped")
  pure pos

def dropIndex (s : CatState) (table index : String) : JobResult CatState := do
  let image ← s.load table
  let pos ← rej (droppable table image.def_ index)
  let _ ← image.indexTree index
  let def_ := { image.def_ with indexes := image.def_.indexes.eraseIdx pos }
  defFits def_
  pure (s.store table ⟨def_, image.data, OrdMap.erase index image.indexes⟩)

end Edb.Catalog
