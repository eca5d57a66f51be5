import Edb.BTree.Tree
import Edb.Catalog.Codec
import Edb.Catalog.Snapshot
import Mathlib.Data.String.Basic

/-!
# The state catalog jobs work on

The published root is the catalog tree: per table its definition, the root of its data tree,
the next value of its sequence and the roots of its index trees. The state keeps what these
lead to: definitions decoded, trees as their contents. A job reads and writes it and either
commits the state it reached or leaves none.
-/

namespace Edb.Catalog

open Edb.Types Edb.Lib

/-- How a job fails. `outOfFuel` is the model's bound on the cascade planner's loop. -/
inductive JobError where
  | rejected (err : CatalogError)
  | btree (err : BTree.BTreeError)
  | outOfFuel
  deriving DecidableEq, Repr

abbrev JobResult := Except JobError

/-- A catalog error rejects the transaction. -/
def rej {α : Type} : CatResult α → JobResult α
  | .ok a => .ok a
  | .error e => .error (.rejected e)

@[simp] theorem rej_eq_ok {α : Type} {x : CatResult α} {a : α} : rej x = .ok a ↔ x = .ok a := by
  cases x <;> simp [rej]

def ofBTree {α : Type} : Except BTree.BTreeError α → JobResult α
  | .ok a => .ok a
  | .error e => .error (.btree e)

/-- What a committed catalog root leads to. -/
structure CatState where
  tables : List (String × TableImage)
  seqs : List (String × Int64)
  deriving Repr

namespace CatState

/-- A fresh database. -/
def empty : CatState := ⟨[], []⟩

/-- The read view of a state. -/
def snapshot (s : CatState) : CatSnapshot := ⟨s.tables⟩

/-- A table's definition and trees, or `UnknownTable`. -/
def load (s : CatState) (table : String) : JobResult TableImage :=
  rej (okOr (.unknownTable table) (OrdMap.find table s.tables))

/-- Every table definition, in name order. -/
def allTables (s : CatState) : List TableDef := s.tables.map (fun e => e.2.def_)

/-- The next value of a table's sequence. -/
def loadSeq (s : CatState) (table : String) : Int64 := (OrdMap.find table s.seqs).getD 1

/-- Put a table's definition and trees. -/
def store (s : CatState) (table : String) (image : TableImage) : CatState :=
  { s with tables := OrdMap.insert table image s.tables }

def storeSeq (s : CatState) (table : String) (seq : Int64) : CatState :=
  { s with seqs := OrdMap.insert table seq s.seqs }

end CatState

/-! ## Catalog keys -/

/-- The key of an entry in a band of the catalog tree. -/
def catKey (band : String) (names : List String) : JobResult Bytes :=
  rej (ofType (encodeKey (.text band :: names.map Value.text)))

def checkFits (key value : Bytes) : JobResult Unit := ofBTree (BTree.checkEntry key value)

/-- A root or sequence entry, eight bytes under its key, has to fit a page. -/
def wordFits (band : String) (names : List String) : JobResult Unit := do
  let key ← catKey band names
  checkFits key (List.replicate 8 0)

/-- A definition has to encode and fit under its key. -/
def defFits (def_ : TableDef) : JobResult Unit := do
  let bytes ← rej (encodeTable def_)
  let key ← catKey "tbl" [def_.name]
  checkFits key bytes

/-! ## Trees -/

/-- Insert into a tree; an entry that fits no page is refused. -/
def treeInsert (key value : Bytes) (tree : TreeContents) : JobResult TreeContents := do
  checkFits key value
  pure (OrdMap.insert key value tree)

/-- The tree of an index, or the corruption its absence is. -/
def TableImage.indexTree (image : TableImage) (index : String) : JobResult TreeContents :=
  rej (okOr (.corrupt .missingEntry) (OrdMap.find index image.indexes))

/-- Every index of the definition has its tree. -/
def TableImage.loadIndexes (image : TableImage) : JobResult Unit :=
  image.def_.indexes.forM (fun idx => do
    let _ ← image.indexTree idx.name
    pure ())

/-- Change the tree of an index. -/
def TableImage.editIndex (image : TableImage) (index : String)
    (edit : TreeContents → JobResult TreeContents) : JobResult TableImage := do
  let tree ← image.indexTree index
  let tree ← edit tree
  pure { image with indexes := OrdMap.insert index tree image.indexes }

/-! ## Index entries -/

/-- The values of an index's columns within a full row. -/
def indexCols (def_ : TableDef) (idx : IndexDef) (row : List Value) : List Value :=
  idx.columns.map (fun name => (CheckExpr.cell def_ row name).getD .null)

/-- The entry a row contributes to an index, if any. -/
def entryFor (def_ : TableDef) (idx : IndexDef) (row : List Value) (pkKey : Bytes) :
    JobResult (Option Entry) :=
  rej (ofType (entry (indexCols def_ idx row) pkKey idx.unique))

/-- Every entry of a fresh index over the existing rows, rejecting unique violations. -/
def computeBackfill (def_ : TableDef) (idx : IndexDef) :
    List Bytes → TreeContents → JobResult (List Entry)
  | _, [] => .ok []
  | seen, (pkKey, bytes) :: rest => do
    let row ← rej (decodePadded def_ bytes)
    match ← entryFor def_ idx row pkKey with
    | none => computeBackfill def_ idx seen rest
    | some e => do
      if idx.unique && seen.contains e.key then
        .error (.rejected (.uniqueViolation def_.name idx.name))
      else do
        checkFits e.key e.value
        let es ← computeBackfill def_ idx (e.key :: seen) rest
        pure (e :: es)

/-- Build an index tree from its entries. -/
def buildTree (entries : List Entry) : JobResult TreeContents :=
  entries.foldlM (fun tree e => treeInsert e.key e.value tree) []

/-- Apply a computed backfill. -/
def applyBackfill (image : TableImage) (idx : IndexDef) (entries : List Entry) :
    JobResult TableImage := do
  let tree ← buildTree entries
  wordFits "iroot" [image.def_.name, idx.name]
  pure { image with indexes := OrdMap.insert idx.name tree image.indexes }

end Edb.Catalog
