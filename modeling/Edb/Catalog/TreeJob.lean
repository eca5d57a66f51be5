import Edb.Catalog.Ddl
import Edb.Catalog.Store
import Edb.Txn.Job

/-!
# Catalog jobs on the trees

The definition jobs as programs over a write context: what they look up, and in which order they
create, free and change trees and move the published root.

Of a row job, `TableWrite` is what is left when its checks have passed: the mutations of the
trees of one table in their order, and the roots it stores after them. The writes of a statement,
its referential closure included, and of a batch are a list of these. The request does not say
which rows were read: `writeRows` does whatever row jobs do, and more.
-/

namespace Edb.Types

def TypeError.category : TypeError → ErrorCategory
  | .keyCorrupt _ | .rowCorrupt _ => .corruption
  | .msgpack _ | .notKeyable _ | .wrongWireType .. | .badUuid => .validation
  | .tooManyColumns .. | .valueTooLarge _ => .resourceLimit

end Edb.Types

namespace Edb.Catalog

open Edb.Types Edb.Lib Edb.Txn

def CatalogError.category : CatalogError → ErrorCategory
  | .type e => e.category
  | .corrupt _ => .corruption
  | .invalidSchema _ | .tableExists _ | .unknownColumn .. | .duplicateColumn _
  | .engineManagedColumn _ | .typeMismatch .. | .pkImmutable _ => .validation
  | .unknownTable _ | .rowNotFound _ | .unknownIndex .. => .notFound
  | .indexExists .. => .validation
  | .indexOutOfSync .. => .corruption
  | .notNull .. | .duplicateKey _ | .uniqueViolation .. | .checkViolation ..
  | .foreignKeyViolation .. | .referencedByChildren .. | .tableReferenced .. => .constraint
  | .policy category => category

instance : Categorized CatalogError where
  category := CatalogError.category

namespace TreeJob

/-- A job that rejects with a catalog error. -/
abbrev StoreJob := Job CatalogError

/-- A catalog error rejects the transaction. -/
def rej {α : Type} : CatResult α → StoreJob α
  | .ok a => .ret a
  | .error e => .reject e

/-- The bound of the cascade planner is no error of a definition job. -/
def txnError : JobError → TxnError CatalogError
  | .rejected e => .rejected e
  | .btree e => .btree e
  | .outOfFuel => .rejected (.corrupt .badValue)

def ofJob {α : Type} (x : JobResult α) : StoreJob α := .ofExcept (x.mapError txnError)

/-! ## Catalog-tree access -/

/-- Look up in the published tree. -/
def lookupEntry (key : Bytes) : StoreJob (Option Bytes) := do
  let root ← Job.root
  Job.lookup root key

def scanBand (band : Bytes × Bytes) : StoreJob (List BTree.Entry) := do
  let root ← Job.root
  Job.scan root (some band.1) (some band.2)

def loadTable (table : String) : StoreJob TableDef := do
  let key ← rej (tblKey table)
  let entry ← lookupEntry key
  let bytes ← rej (okOr (.unknownTable table) entry)
  rej (decodeTable bytes)

def loadTableOpt (table : String) : StoreJob (Option TableDef) := do
  let key ← rej (tblKey table)
  let entry ← lookupEntry key
  rej (entry.mapM decodeTable)

/-- Every table definition currently in the catalog. -/
def allTables : StoreJob (List TableDef) := do
  let band ← rej tblBand
  let entries ← scanBand band
  rej (entries.mapM fun e => decodeTable e.2)

/-- The root stored under a key. -/
def loadRootAt (key : Bytes) : StoreJob Nat := do
  let entry ← lookupEntry key
  let bytes ← rej (okOr (.corrupt .missingEntry) entry)
  rej (decodeRoot bytes)

def loadRoot (table : String) : StoreJob Nat := do
  let key ← rej (rootKey table)
  loadRootAt key

/-- Load one index tree's root by table and index name. -/
def loadIroot (table index : String) : StoreJob Nat := do
  let key ← rej (irootKey table index)
  loadRootAt key

/-- The root of every index of a definition. -/
def loadIndexRoots (def_ : TableDef) : StoreJob (List Nat) :=
  def_.indexes.mapM fun idx => loadIroot def_.name idx.name

def storeEntry (key value : Bytes) : StoreJob Unit := do
  let root ← Job.root
  let cat ← Job.insert root key value
  Job.setRoot cat

/-- Delete from the published tree. -/
def deleteEntry (key : Bytes) : StoreJob Unit := do
  let root ← Job.root
  let cat ← Job.delete root key
  Job.setRoot cat

def storeRoot (table : String) (root : Nat) : StoreJob Unit := do
  let key ← rej (rootKey table)
  let value ← rej (encodeRoot root)
  storeEntry key value

def storeIroot (table index : String) (root : Nat) : StoreJob Unit := do
  let key ← rej (irootKey table index)
  let value ← rej (encodeRoot root)
  storeEntry key value

def storeSeq (table : String) (next : Int64) : StoreJob Unit := do
  let key ← rej (seqKey table)
  storeEntry key (encodeSeq next)

/-! ## Index trees -/

/-- Every entry of a fresh index over the existing rows, rejecting unique violations. -/
def computeBackfill (def_ : TableDef) (dataRoot : Nat) (idx : IndexDef) :
    StoreJob (List Entry) := do
  let rows ← Job.scan dataRoot none none
  ofJob (Catalog.computeBackfill def_ idx [] rows)

/-- Apply a computed backfill: build the tree and store its root. -/
def applyBackfill (table : String) (idx : IndexDef) (entries : List Entry) : StoreJob Unit := do
  let root ← Job.createTree
  let root ← entries.foldlM (fun root e => Job.insert root e.key e.value) root
  storeIroot table idx.name root

/-- An empty tree for an index of a new table. -/
def createIroot (table : String) (idx : IndexDef) : StoreJob Unit := do
  let root ← Job.createTree
  storeIroot table idx.name root

/-! ## Definition jobs -/

/-- The table a foreign key refers to; a self-reference resolves to the definition itself. -/
def fkParent (def_ : TableDef) (fk : ForeignKey) : StoreJob TableDef :=
  if fk.parent = def_.name then pure def_
  else do
    let parent ← loadTableOpt fk.parent
    rej (okOr (.invalidSchema ("foreign key \"" ++ fk.name ++ "\" references unknown table \""
      ++ fk.parent ++ "\"")) parent)

/-- The cross-table checks of one foreign key. -/
def validateFkOf (def_ : TableDef) (fk : ForeignKey) : StoreJob Unit := do
  rej (require (!(fk.onUpdate = .cascade && fk.columns.any def_.pk.contains))
    (.invalidSchema ("foreign key \"" ++ fk.name
      ++ "\": on_update CASCADE cannot move a primary-key column")))
  let parent ← fkParent def_ fk
  rej (require (parent.isKey fk.parentColumns)
    (.invalidSchema ("foreign key \"" ++ fk.name
      ++ "\" must reference the parent's primary key or a unique index")))
  rej (require ((fk.columns.zip fk.parentColumns).all (kindsMatch def_ parent))
    (.invalidSchema ("foreign key \"" ++ fk.name
      ++ "\" column types do not match the referenced columns")))

def validateFks (def_ : TableDef) : StoreJob Unit := def_.foreignKeys.forM (validateFkOf def_)

/-- A table with an auto-increment column has a sequence. -/
def createSeq (def_ : TableDef) : StoreJob Unit :=
  if def_.columns.any (fun c => c.autoIncrement) then storeSeq def_.name 1 else pure ()

def createTable (def_ : TableDef) : StoreJob Unit := do
  let def_ := def_.materializeImplicitIndexes
  rej def_.validate
  validateFks def_
  let key ← rej (tblKey def_.name)
  let entry ← lookupEntry key
  rej (require entry.isNone (.tableExists def_.name))
  let bytes ← rej (encodeTable def_)
  ofJob (checkFits key bytes)
  let dataRoot ← Job.createTree
  storeEntry key bytes
  storeRoot def_.name dataRoot
  createSeq def_
  def_.indexes.forM (createIroot def_.name)

/-- Another table must not refer to a table that is dropped; its own references do not count. -/
def refuseReferenced (table : String) (other : TableDef) : CatResult Unit :=
  if other.name = table then .ok ()
  else
    match other.foreignKeys.find? (fun fk => fk.parent = table) with
    | some fk => .error (.tableReferenced table other.name fk.name)
    | none => .ok ()

/-- Free an index tree and unlink it. -/
def dropIroot (e : BTree.Entry) : StoreJob Unit := do
  let iroot ← rej (decodeRoot e.2)
  Job.freeTree iroot
  deleteEntry e.1

def dropTable (table : String) : StoreJob Unit := do
  let _ ← loadTable table
  let others ← allTables
  rej (others.forM (refuseReferenced table))
  let dataRoot ← loadRoot table
  Job.freeTree dataRoot
  let band ← rej (irootBand table)
  let iroots ← scanBand band
  iroots.forM dropIroot
  let tbl ← rej (tblKey table)
  let root ← rej (rootKey table)
  let seq ← rej (seqKey table)
  deleteEntry tbl
  deleteEntry root
  deleteEntry seq

def addColumn (table : String) (column : ColumnDef) : StoreJob Unit := do
  let def_ ← loadTable table
  rej (require (def_.colIndex column.name).isNone
    (.invalidSchema "a column with that name already exists"))
  rej (require (backfillable column)
    (.invalidSchema "an added column must be nullable or carry a constant default"))
  let wider := { def_ with columns := def_.columns ++ [column] }
  let def_ := wider.materializeImplicitIndexes
  rej def_.validate
  let bytes ← rej (encodeTable def_)
  let key ← rej (tblKey table)
  ofJob (checkFits key bytes)
  let dataRoot ← loadRoot table
  let backfills ← wider.neededIndexes.mapM fun idx => do
    let entries ← computeBackfill def_ dataRoot idx
    pure (idx, entries)
  storeEntry key bytes
  backfills.forM fun b => applyBackfill table b.1 b.2

def createIndex (table : String) (index : IndexDef) : StoreJob Unit := do
  let def_ ← loadTable table
  rej (require (def_.indexPos index.name).isNone (.indexExists table index.name))
  let def_ := { def_ with indexes := def_.indexes ++ [index] }
  rej def_.validate
  let bytes ← rej (encodeTable def_)
  let key ← rej (tblKey table)
  ofJob (checkFits key bytes)
  let dataRoot ← loadRoot table
  let entries ← computeBackfill def_ dataRoot index
  storeEntry key bytes
  applyBackfill table index entries

def dropIndex (table index : String) : StoreJob Unit := do
  let def_ ← loadTable table
  let pos ← rej (droppable table def_ index)
  let def_ := { def_ with indexes := def_.indexes.eraseIdx pos }
  let key ← rej (irootKey table index)
  let iroot ← loadRootAt key
  let bytes ← rej (encodeTable def_)
  let tbl ← rej (tblKey table)
  Job.freeTree iroot
  deleteEntry key
  storeEntry tbl bytes

/-! ## Row jobs -/

/-- A mutation of one of a table's trees. -/
inductive TreeEdit where
  | row (op : Op)
  /-- Of the index at this position. -/
  | entry (index : Nat) (op : Op)
  deriving DecidableEq, Repr

/-- What a row job writes to a table. -/
structure TableWrite where
  table : String
  edits : List TreeEdit
  /-- An insert stores the root of every index, the others of those they touched. -/
  everyIndex : Bool
  /-- The sequence, where it has moved. -/
  seq : Option Int64
  deriving DecidableEq, Repr

/-- The roots of a table while it is written to, and the indexes touched. -/
structure TableRoots where
  data : Nat
  indexes : List Nat
  touched : List Nat

def mutate (root : Nat) : Op → StoreJob Nat
  | .put key value => Job.insert root key value
  | .delete key => Job.delete root key

def applyEdit (roots : TableRoots) : TreeEdit → StoreJob TableRoots
  | .row op => do
      let data ← mutate roots.data op
      pure { roots with data }
  | .entry i op =>
      match roots.indexes[i]? with
      | none => pure roots
      | some root => do
          let root ← mutate root op
          pure { roots with indexes := roots.indexes.set i root, touched := i :: roots.touched }

/-- Store the roots of the indexes that `stored` selects by their positions, from `i` on. -/
def storeIroots (table : String) (stored : Nat → Bool) :
    Nat → List (IndexDef × Nat) → StoreJob Unit
  | _, [] => pure ()
  | i, (idx, root) :: rest => do
      (if stored i then storeIroot table idx.name root else pure ())
      storeIroots table stored (i + 1) rest

def writeTable (w : TableWrite) : StoreJob Unit := do
  let def_ ← loadTable w.table
  let data ← loadRoot w.table
  let indexes ← loadIndexRoots def_
  let roots ← w.edits.foldlM applyEdit ⟨data, indexes, []⟩
  storeRoot w.table roots.data
  storeIroots w.table (fun i => w.everyIndex || roots.touched.contains i) 0
    (def_.indexes.zip roots.indexes)
  match w.seq with
  | some seq => storeSeq w.table seq
  | none => pure ()

def writeRows (writes : List TableWrite) : StoreJob Unit := writes.forM writeTable

/-! ## Requests -/

/-- One catalog write transaction. -/
inductive Request where
  | createTable (def_ : TableDef)
  | dropTable (table : String)
  | addColumn (table : String) (column : ColumnDef)
  | createIndex (table : String) (index : IndexDef)
  | dropIndex (table index : String)
  | writeRows (writes : List TableWrite)

def apply : Request → StoreJob Unit
  | .createTable def_ => createTable def_
  | .dropTable table => dropTable table
  | .addColumn table column => addColumn table column
  | .createIndex table index => createIndex table index
  | .dropIndex table index => dropIndex table index
  | .writeRows writes => writeRows writes

end TreeJob

end Edb.Catalog
