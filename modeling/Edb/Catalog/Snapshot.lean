import Edb.Lib.OrdMap
import Edb.Catalog.Index
import Mathlib.Data.List.Sort

/-!
# The read view over schema and data

A snapshot holds, for every table, its definition, the contents of its data tree (encoded
primary key to encoded row) and those of its index trees, in key order as a tree scan
returns them.
-/

namespace Edb.Catalog

open Edb.Types Edb.Lib

/-- The contents of a tree: its bindings in ascending key order. -/
abbrev TreeContents := List (Bytes × Bytes)

/-- What the catalog holds for one table. -/
structure TableImage where
  def_ : TableDef
  data : TreeContents
  indexes : List (String × TreeContents)
  deriving Repr

/-- A consistent view pinned at one committed version. -/
structure CatSnapshot where
  tables : List (String × TableImage)
  deriving Repr

/-- The value, or the error its absence is. -/
def okOr {α : Type} (e : CatalogError) : Option α → CatResult α
  | none => .error e
  | some a => .ok a

namespace CatSnapshot

/-- The image of a table, or `UnknownTable`. -/
def image (snap : CatSnapshot) (table : String) : CatResult TableImage :=
  okOr (.unknownTable table) (snap.tables.lookup table)

/-- The definition of a table. -/
def table (snap : CatSnapshot) (table : String) : CatResult TableDef := do
  let image ← snap.image table
  pure image.def_

/-- One row by primary key. -/
def get (snap : CatSnapshot) (table : String) (pk : List Value) :
    CatResult (Option (List Value)) := do
  let image ← snap.image table
  let key ← ofType (encodeKey pk)
  match OrdMap.find key image.data with
  | some bytes => do
    let row ← decodePadded image.def_ bytes
    pure (some row)
  | none => pure none

/-- All rows of a table in primary-key order. -/
def scan (snap : CatSnapshot) (table : String) : CatResult (List (List Value)) := do
  let image ← snap.image table
  image.data.mapM (fun e => decodePadded image.def_ e.2)

/-- The bindings with `lo ≤ key < hi`. -/
def rangeIn (lo : Bytes) (hi : Option Bytes) (tree : TreeContents) : TreeContents :=
  tree.filter (fun e => decide (lo ≤ e.1) && hi.all (fun hi => decide (e.1 < hi)))

/-- The rows stored under the keys that are present, in order. -/
def fetch (image : TableImage) : List Bytes → CatResult (List (List Value))
  | [] => .ok []
  | pk :: pks =>
    match OrdMap.find pk image.data with
    | some bytes => do
      let row ← decodePadded image.def_ bytes
      let rows ← fetch image pks
      pure (row :: rows)
    | none => fetch image pks

/-- Candidate rows for a leading prefix of an index, in primary-key order. -/
def indexCandidates (snap : CatSnapshot) (table index : String) (keyPrefix : List Value) :
    CatResult (List (List Value)) := do
  let image ← snap.image table
  let tree ← okOr (.corrupt .missingEntry) (image.indexes.lookup index)
  let (lo, hi) ← ofType (prefixBounds keyPrefix)
  let pkKeys := (rangeIn lo hi tree).map Prod.snd
  fetch image (pkKeys.insertionSort (· ≤ ·))

end CatSnapshot

end Edb.Catalog
