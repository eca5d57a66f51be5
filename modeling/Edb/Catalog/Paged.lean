import Edb.Catalog.Drop
import Edb.Catalog.Validate

/-!
# The read view on pages

A snapshot is pinned at a root. It looks the definitions and the roots of the tables up in the
catalog tree there, and reads the data and the index trees that they lead to. On pages that store
tables (`StoresTables`) every read returns what it returns of the tables themselves.

* **The check of a whole database** (`validate_exact`): in the states runs lead to no tree fails
  the structural check, and the check fails in one way only: it names an index that is out of step
  with its table.
-/

namespace Edb.Catalog

open Edb.Types Edb.Lib Edb.Txn

/-- A read of the pages. -/
abbrev ReadM (α : Type) := EStateM (TxnError CatalogError) (Pager BTree.Node) α

namespace ReadM

def ofTree {α : Type} (x : BTree.BTreeM α) : ReadM α := fun p =>
  match x p with
  | .ok a p' => .ok a p'
  | .error e p' => .error (.btree e) p'

def ofCatalog {α : Type} : CatResult α → ReadM α
  | .ok a => pure a
  | .error e => throw (.rejected e)

/-- Look up a key in any tree. -/
def getIn (root : Nat) (key : Bytes) : ReadM (Option Bytes) := ofTree (BTree.lookup root key)

/-- Collect `[lo, hi)` from any tree. -/
def rangeIn (root : Nat) (lo hi : Option Bytes) : ReadM TreeContents :=
  ofTree (BTree.range root lo hi)

/-- Collect a whole tree. -/
def scanIn (root : Nat) : ReadM TreeContents := rangeIn root none none

/-- The structural check of any tree. -/
def validateTree (root : Nat) : ReadM BTree.TreeStats := ofTree (BTree.validate root)

end ReadM

/-- A read view over schema and data, pinned at one committed version. -/
structure PinnedSnapshot where
  root : Option Nat

namespace PinnedSnapshot

open ReadM

variable (snap : PinnedSnapshot)

/-- Look up a key in the tree at the published root. -/
def lookup (key : Bytes) : ReadM (Option Bytes) :=
  match snap.root with
  | none => pure none
  | some root => getIn root key

/-- Collect `[lo, hi)` from the tree at the published root. -/
def range (lo hi : Option Bytes) : ReadM TreeContents :=
  match snap.root with
  | none => pure []
  | some root => rangeIn root lo hi

/-- All table names, ascending. -/
def tables : ReadM (List String) := do
  let band ← ofCatalog tblBand
  let entries ← snap.range (some band.1) (some band.2)
  ofCatalog (entries.mapM (fun e => do
    let def_ ← decodeTable e.2
    pure def_.name))

/-- The definition of a table. -/
def table (table : String) : ReadM TableDef := do
  let key ← ofCatalog (tblKey table)
  let entry ← snap.lookup key
  let bytes ← ofCatalog (okOr (.unknownTable table) entry)
  ofCatalog (decodeTable bytes)

/-- The root stored under a key. -/
def rootAt (key : Bytes) : ReadM Nat := do
  let entry ← snap.lookup key
  let bytes ← ofCatalog (okOr (.corrupt .missingEntry) entry)
  ofCatalog (decodeRoot bytes)

def dataRoot (table : String) : ReadM Nat := do
  let key ← ofCatalog (rootKey table)
  snap.rootAt key

def indexRoot (table index : String) : ReadM Nat := do
  let key ← ofCatalog (irootKey table index)
  snap.rootAt key

/-- Look up one row by primary key. -/
def get (table : String) (pk : List Value) : ReadM (Option (List Value)) := do
  let def_ ← snap.table table
  let key ← ofCatalog (ofType (encodeKey pk))
  let root ← snap.dataRoot table
  let entry ← getIn root key
  match entry with
  | some bytes => do
    let row ← ofCatalog (decodePadded def_ bytes)
    pure (some row)
  | none => pure none

/-- All rows of a table in primary-key order. -/
def scan (table : String) : ReadM (List (List Value)) := do
  let def_ ← snap.table table
  let root ← snap.dataRoot table
  let entries ← scanIn root
  ofCatalog (entries.mapM (fun e => decodePadded def_ e.2))

/-- The rows stored under the keys that are present, in order. -/
def fetch (def_ : TableDef) (root : Nat) : List Bytes → ReadM (List (List Value))
  | [] => pure []
  | pk :: pks => do
    let entry ← getIn root pk
    match entry with
    | some bytes => do
      let row ← ofCatalog (decodePadded def_ bytes)
      let rows ← fetch def_ root pks
      pure (row :: rows)
    | none => fetch def_ root pks

/-- Candidate rows for a leading prefix of an index, in primary-key order. -/
def indexCandidates (table index : String) (keyPrefix : List Value) :
    ReadM (List (List Value)) := do
  let def_ ← snap.table table
  let iroot ← snap.indexRoot table index
  let bounds ← ofCatalog (ofType (prefixBounds keyPrefix))
  let entries ← rangeIn iroot (some bounds.1) bounds.2
  let root ← snap.dataRoot table
  fetch def_ root ((entries.map Prod.snd).insertionSort (· ≤ ·))

/-- Compare one index with the base rows of its table. -/
def validateIndex (table : String) (def_ : TableDef) (base : TreeContents) (idx : IndexDef) :
    ReadM Unit := do
  let iroot ← snap.indexRoot table idx.name
  let _ ← validateTree iroot
  let expected ← ofCatalog (CatSnapshot.expectedEntries def_ idx base)
  let actual ← scanIn iroot
  ofCatalog (require (expected.insertionSort (fun a b => toLex a ≤ toLex b) = actual)
    (.indexOutOfSync table idx.name))

def validateTable (table : String) : ReadM Unit := do
  let def_ ← snap.table table
  let root ← snap.dataRoot table
  let _ ← validateTree root
  let base ← scanIn root
  def_.indexes.forM (snap.validateIndex table def_ base)

def validateCatalog : ReadM Unit :=
  match snap.root with
  | some root => do
    let _ ← validateTree root
    pure ()
  | none => pure ()

/-- Every tree is structurally valid, and every index matches its base table entry for entry. -/
def validate : ReadM Unit := do
  snap.validateCatalog
  let names ← snap.tables
  names.forM snap.validateTable

end PinnedSnapshot

/-! ## Pages that store tables -/

namespace TreeJob

/-- The slot of an entry leads to a tree with these bindings. -/
def SlotHas (es : List BTree.Entry) (f : Forest) (k : StoreKey) (bindings : TreeContents) : Prop :=
  ∃ r t, slotsOf es k = some r ∧ f.trees r = some t ∧ t.entries = bindings

/-- The entries and the trees of a table are those of its image. -/
structure ShowsTable (es : List BTree.Entry) (f : Forest) (table : String) (image : TableImage) :
    Prop where
  definition : ∃ bytes, entryIn es (.tbl table) = some bytes ∧ decodeTable bytes = .ok image.def_
  data : SlotHas es f (.root table) image.data
  index : ∀ name tree, OrdMap.find name image.indexes = some tree →
    SlotHas es f (.iroot table name) tree
  noIndex : ∀ name, OrdMap.find name image.indexes = none → entryIn es (.iroot table name) = none

/-- The definitions among the entries, in key order. -/
def definitionsOf (es : List BTree.Entry) : CatResult (List TableDef) := do
  let band ← tblBand
  (es.filter (fun e => BTree.inBounds (some band.1) (some band.2) e.1)).mapM
    (fun e => decodeTable e.2)

/-- The catalog tree and the trees in its slots are those of the tables. -/
structure Represents (es : List BTree.Entry) (f : Forest) (snap : CatSnapshot) : Prop where
  catalog : ∃ t, f.trees f.root = some t ∧ t.entries = es
  definitions : definitionsOf es = .ok (snap.tables.map (fun e => e.2.def_))
  table : ∀ table image, OrdMap.find table snap.tables = some image → ShowsTable es f table image
  noTable : ∀ table, OrdMap.find table snap.tables = none → entryIn es (.tbl table) = none

end TreeJob

/-- The pages under a root hold the tables. -/
def StoresTables (p : Pager BTree.Node) (root : Nat) (snap : CatSnapshot) : Prop :=
  p.Ok ∧ ∃ ts f es, f.root = root ∧ Holding p ts f.trees ∧ TreeJob.Represents es f snap

/-! ## What reads return -/

section Shows

variable {α β : Type} {f : Forest} {es : List BTree.Entry} {t : TreeState} {r : Nat}

/-- The pager holds the trees. -/
def OnPages (f : Forest) (p : Pager BTree.Node) : Prop := p.Ok ∧ ∃ ts, Holding p ts f.trees

/-- On pages that hold the trees a read returns this. -/
def Shows (f : Forest) (x : ReadM α) (y : CatResult α) : Prop :=
  Answers (OnPages f) x (y.mapError .rejected)

namespace Shows

variable {x : ReadM α} {g : α → ReadM β}

theorem pure (a : α) : Shows f (Pure.pure a) (.ok a) := Answers.pure a

theorem ofCatalog (y : CatResult α) : Shows f (ReadM.ofCatalog y) y := by
  cases y with
  | ok a => exact Answers.pure a
  | error e => exact Answers.throw (TxnError.rejected e)

/-- Reads that show the same one after another show the same. -/
theorem bind {y : CatResult α} {h : α → CatResult β} (hx : Shows f x y)
    (hg : ∀ a, y = .ok a → Shows f (g a) (h a)) : Shows f (x >>= g) (y >>= h) := by
  have hbind := Answers.bind (g := fun a => (h a).mapError TxnError.rejected) hx (f := g)
    (fun a ha => by
      cases y with
      | ok b =>
        cases ha
        exact hg a rfl
      | error e => cases ha)
  cases y <;> exact hbind

/-- A read that returns is followed by what comes after. -/
theorem next {a : α} {y : CatResult β} (hx : Shows f x (.ok a)) (hg : Shows f (g a) y) :
    Shows f (x >>= g) y :=
  bind (h := fun _ => y) hx (fun a' ha' => by cases ha'; exact hg)

/-- A read that fails ends there. -/
theorem stop {e : CatalogError} (hx : Shows f x (.error e)) : Shows f (x >>= g) (.error e) :=
  bind (h := fun _ => .error e) hx (fun _ ha => by cases ha)

theorem forM {g : α → ReadM Unit} {h : α → CatResult Unit} {l : List α}
    (hg : ∀ a ∈ l, Shows f (g a) (h a)) : Shows f (l.forM g) (l.forM h) := by
  induction l with
  | nil => exact pure ()
  | cons a l ih =>
    refine bind (hg a List.mem_cons_self) (fun _ _ => ih (fun b hb => ?_))
    exact hg b (List.mem_cons_of_mem _ hb)

/-- A read of one tree. -/
theorem ofTree {x : BTree.BTreeM α} {a : α} (ht : f.trees r = some t)
    (hx : ∀ p t', p.Ok → BTree.Holds p t' → t'.root = r → t'.entries = t.entries →
      ∃ p', x p = .ok a p' ∧ Pager.Reads p p') : Shows f (ReadM.ofTree x) (.ok a) := by
  rintro p ⟨hp, ts, hheld⟩
  obtain ⟨l₁, t', l₂, rfl, hroot, hshape⟩ := hheld.tree ht
  obtain ⟨p', hrun, hreads⟩ :=
    hx p t' hp (hheld.held t' (by simp)) hroot (entries_of_shape hshape).symm
  refine ⟨p', ⟨hreads.ok, _, hheld.grows hreads.grows⟩, ?_⟩
  show ReadM.ofTree x p = .ok a p'
  rw [ReadM.ofTree, hrun]

theorem getIn (ht : f.trees r = some t) (key : Bytes) :
    Shows f (ReadM.getIn r key) (.ok (OrdMap.find key t.entries)) := by
  refine ofTree ht ?_
  rintro p t' hp hheld rfl hes
  rw [← hes]
  exact BTree.lookup_spec hp hheld key

theorem rangeIn (ht : f.trees r = some t) (lo hi : Option Bytes) :
    Shows f (ReadM.rangeIn r lo hi)
      (.ok (t.entries.filter (fun e => BTree.inBounds lo hi e.1))) := by
  refine ofTree ht ?_
  rintro p t' hp hheld rfl hes
  rw [← hes]
  exact BTree.range_spec hp hheld lo hi

theorem scanIn (ht : f.trees r = some t) : Shows f (ReadM.scanIn r) (.ok t.entries) := by
  have hall : t.entries.filter (fun e => BTree.inBounds none none e.1) = t.entries :=
    List.filter_eq_self.2 (fun _ _ => rfl)
  have hrange := rangeIn ht none none
  rwa [hall] at hrange

/-- A tree the pages hold passes the structural check. -/
theorem validated {x : ReadM β} {y : CatResult β} (ht : f.trees r = some t) (hx : Shows f x y) :
    Shows f (ReadM.validateTree r >>= fun _ => x) y := by
  rintro p ⟨hp, ts, hheld⟩
  obtain ⟨l₁, t', l₂, rfl, rfl, -⟩ := hheld.tree ht
  obtain ⟨stats, p', hrun, hreads⟩ : ∃ stats p', BTree.validate t'.root p = .ok stats p' ∧
      Pager.Reads p p' := ⟨_, BTree.validate_spec hp (hheld.held t' (by simp))⟩
  obtain ⟨p'', honpages, hread⟩ := hx p' ⟨hreads.ok, _, hheld.grows hreads.grows⟩
  refine ⟨p'', honpages, ?_⟩
  have hvalidate : ReadM.validateTree t'.root p = .ok stats p' := by
    rw [ReadM.validateTree, ReadM.ofTree, hrun]
  rw [bind_of_ok hvalidate]
  exact hread

end Shows

end Shows

namespace TreeJob

/-! ### Reads of a catalog -/

section Represents

variable {f : Forest} {es : List BTree.Entry} {snap : CatSnapshot}

theorem slotsOf_eq_some_entry {k : StoreKey} {r : Nat} (h : slotsOf es k = some r) :
    ∃ value, entryIn es k = some value ∧ decodeRoot value = .ok r := by
  rw [slotsOf] at h
  split at h
  · obtain ⟨value, hvalue, hr⟩ := Option.bind_eq_some_iff.1 h
    exact ⟨value, hvalue, Result.toOption_eq_some hr⟩
  · cases h

variable (h : Represents es f snap)

include h

theorem Represents.lookup (k : StoreKey) :
    Shows f (PinnedSnapshot.lookup ⟨some f.root⟩ k.bytes) (.ok (entryIn es k)) := by
  obtain ⟨t, ht, rfl⟩ := h.catalog
  exact .getIn ht k.bytes

/-- The root stored for a slot is that of its tree. -/
theorem Represents.rootAt {k : StoreKey} {bindings : TreeContents}
    (hslot : SlotHas es f k bindings) :
    ∃ r t, f.trees r = some t ∧ t.entries = bindings ∧
      Shows f (PinnedSnapshot.rootAt ⟨some f.root⟩ k.bytes) (.ok r) := by
  obtain ⟨r, t, hr, ht, hes⟩ := hslot
  obtain ⟨value, hvalue, hdecode⟩ := slotsOf_eq_some_entry hr
  refine ⟨r, t, ht, hes, .next (h.lookup k) ?_⟩
  rw [hvalue, ← hdecode]
  exact .next (.pure value) (.ofCatalog _)

theorem Represents.dataRoot {table : String} {bindings : TreeContents}
    (hslot : SlotHas es f (.root table) bindings) : ∃ r t, f.trees r = some t ∧
      t.entries = bindings ∧ Shows f (PinnedSnapshot.dataRoot ⟨some f.root⟩ table) (.ok r) := by
  obtain ⟨r, t, ht, hes, hroot⟩ := h.rootAt hslot
  refine ⟨r, t, ht, hes, ?_⟩
  rw [PinnedSnapshot.dataRoot, rootKey_eq]
  exact .next (.pure _) hroot

theorem Represents.indexRoot {table index : String} {bindings : TreeContents}
    (hslot : SlotHas es f (.iroot table index) bindings) : ∃ r t, f.trees r = some t ∧
      t.entries = bindings ∧
        Shows f (PinnedSnapshot.indexRoot ⟨some f.root⟩ table index) (.ok r) := by
  obtain ⟨r, t, ht, hes, hroot⟩ := h.rootAt hslot
  refine ⟨r, t, ht, hes, ?_⟩
  rw [PinnedSnapshot.indexRoot, irootKey_eq]
  exact .next (.pure _) hroot

/-- An index that is not there has no root. -/
theorem Represents.indexRoot_none {table index : String}
    (hnone : entryIn es (.iroot table index) = none) :
    Shows f (PinnedSnapshot.indexRoot ⟨some f.root⟩ table index)
      (.error (.corrupt .missingEntry)) := by
  rw [PinnedSnapshot.indexRoot, irootKey_eq]
  refine .next (.pure _) (.next (h.lookup (.iroot table index)) ?_)
  rw [hnone]
  exact .stop (.ofCatalog (okOr _ none))

theorem Represents.table_eq {table : String} {image : TableImage}
    (himage : OrdMap.find table snap.tables = some image) :
    Shows f (PinnedSnapshot.table ⟨some f.root⟩ table) (.ok image.def_) := by
  obtain ⟨bytes, hbytes, hdecode⟩ := (h.table table image himage).definition
  rw [PinnedSnapshot.table, tblKey_eq, ← hdecode]
  refine .next (.pure _) (.next (h.lookup (.tbl table)) ?_)
  rw [hbytes]
  exact .next (.pure bytes) (.ofCatalog _)

theorem Represents.table_none {table : String} (hnone : OrdMap.find table snap.tables = none) :
    Shows f (PinnedSnapshot.table ⟨some f.root⟩ table) (.error (.unknownTable table)) := by
  rw [PinnedSnapshot.table, tblKey_eq]
  refine .next (.pure _) (.next (h.lookup (.tbl table)) ?_)
  rw [h.noTable table hnone]
  exact .stop (.ofCatalog (okOr _ none))

/-- Listing the tables of a pinned root returns the names of the snapshot. -/
theorem Represents.tables :
    Shows f (PinnedSnapshot.tables ⟨some f.root⟩) (.ok snap.tableNames) := by
  obtain ⟨t, ht, rfl⟩ := h.catalog
  obtain ⟨band, hband, hdefs⟩ := Result.bind_eq_ok.1 h.definitions
  have hnames : (t.entries.filter (fun e => BTree.inBounds (some band.1) (some band.2) e.1)).mapM
      (fun e => do
        let def_ ← decodeTable e.2
        pure def_.name) = .ok snap.tableNames := by
    have hlist : snap.tableNames = (snap.tables.map (fun e => e.2.def_)).map TableDef.name := by
      rw [CatSnapshot.tableNames, List.map_map]
      rfl
    rw [hlist, Result.mapM_eq_ok, List.forall₂_map_right_iff]
    refine (Result.mapM_eq_ok.1 hdefs).imp (fun e def_ hdef => ?_)
    rw [hdef]
    rfl
  rw [PinnedSnapshot.tables, hband, ← hnames]
  exact .next (.pure band) (.next (.rangeIn ht _ _) (.ofCatalog _))

end Represents

section Reads

variable {f : Forest} {es : List BTree.Entry} {snap : CatSnapshot} {table index : String}

theorem image_of_find {image : TableImage} (himage : OrdMap.find table snap.tables = some image) :
    snap.image table = .ok image := by
  rw [CatSnapshot.image, OrdMap.lookup_eq_find, himage]
  rfl

theorem image_of_none (hnone : OrdMap.find table snap.tables = none) :
    snap.image table = .error (.unknownTable table) := by
  rw [CatSnapshot.image, OrdMap.lookup_eq_find, hnone]
  rfl

/-- Looking up a row. -/
theorem Represents.get (h : Represents es f snap) (pk : List Value) :
    Shows f (PinnedSnapshot.get ⟨some f.root⟩ table pk) (snap.get table pk) := by
  cases hfind : OrdMap.find table snap.tables with
  | none =>
    rw [CatSnapshot.get, image_of_none hfind]
    exact .stop (h.table_none hfind)
  | some image =>
    rw [CatSnapshot.get, image_of_find hfind]
    obtain ⟨r, t, ht, hes, hroot⟩ := h.dataRoot (h.table table image hfind).data
    refine .next (h.table_eq hfind) (.bind (.ofCatalog _) (fun key _ => ?_))
    refine .next hroot (.next (.getIn ht key) ?_)
    rw [hes]
    cases OrdMap.find key image.data with
    | none => exact .pure none
    | some bytes => exact .bind (.ofCatalog _) (fun row _ => .pure (some row))

/-- Scanning a table. -/
theorem Represents.scan (h : Represents es f snap) :
    Shows f (PinnedSnapshot.scan ⟨some f.root⟩ table) (snap.scan table) := by
  cases hfind : OrdMap.find table snap.tables with
  | none =>
    rw [CatSnapshot.scan, image_of_none hfind]
    exact .stop (h.table_none hfind)
  | some image =>
    rw [CatSnapshot.scan, image_of_find hfind]
    obtain ⟨r, t, ht, hes, hroot⟩ := h.dataRoot (h.table table image hfind).data
    refine .next (h.table_eq hfind) (.next hroot (.next (.scanIn ht) ?_))
    rw [hes]
    exact .ofCatalog _

theorem shows_fetch {image : TableImage} {r : Nat} {t : TreeState} (ht : f.trees r = some t)
    (hes : t.entries = image.data) (pks : List Bytes) :
    Shows f (PinnedSnapshot.fetch image.def_ r pks) (CatSnapshot.fetch image pks) := by
  induction pks with
  | nil => exact .pure []
  | cons pk pks ih =>
    rw [PinnedSnapshot.fetch, CatSnapshot.fetch]
    refine .next (.getIn ht pk) ?_
    rw [hes]
    cases OrdMap.find pk image.data with
    | none => exact ih
    | some bytes =>
      exact .bind (.ofCatalog _) (fun row _ => .bind ih (fun rows _ => .pure (row :: rows)))

/-- Probing an index. -/
theorem Represents.indexCandidates (h : Represents es f snap) (keyPrefix : List Value) :
    Shows f (PinnedSnapshot.indexCandidates ⟨some f.root⟩ table index keyPrefix)
      (snap.indexCandidates table index keyPrefix) := by
  cases hfind : OrdMap.find table snap.tables with
  | none =>
    rw [CatSnapshot.indexCandidates, image_of_none hfind]
    exact .stop (h.table_none hfind)
  | some image =>
    have hshows := h.table table image hfind
    rw [CatSnapshot.indexCandidates, image_of_find hfind, Result.ok_bind, OrdMap.lookup_eq_find]
    refine .next (h.table_eq hfind) ?_
    cases hindex : OrdMap.find index image.indexes with
    | none => exact .stop (h.indexRoot_none (hshows.noIndex index hindex))
    | some tree =>
      obtain ⟨ri, ti, hti, hesi, hiroot⟩ := h.indexRoot (hshows.index index tree hindex)
      obtain ⟨r, t, ht, hes, hroot⟩ := h.dataRoot hshows.data
      refine .next hiroot (.bind (.ofCatalog _) (fun bounds _ => ?_))
      refine .next (.rangeIn hti _ _) (.next hroot ?_)
      have hrange : ti.entries.filter (fun e => BTree.inBounds (some bounds.1) bounds.2 e.1) =
          CatSnapshot.rangeIn bounds.1 bounds.2 tree := by
        rw [hesi, CatSnapshot.rangeIn]
        refine List.filter_congr (fun e _ => ?_)
        cases bounds.2 <;> rfl
      rw [hrange]
      exact shows_fetch ht hes _

/-- Comparing one index with its table. -/
theorem Represents.validateIndex (h : Represents es f snap) {image : TableImage}
    (hfind : OrdMap.find table snap.tables = some image) (idx : IndexDef) :
    Shows f (PinnedSnapshot.validateIndex ⟨some f.root⟩ table image.def_ image.data idx)
      (CatSnapshot.crossCheckIndex table image idx) := by
  have hshows := h.table table image hfind
  rw [CatSnapshot.crossCheckIndex, OrdMap.lookup_eq_find]
  cases hindex : OrdMap.find idx.name image.indexes with
  | none => exact .stop (h.indexRoot_none (hshows.noIndex idx.name hindex))
  | some tree =>
    obtain ⟨r, t, ht, rfl, hroot⟩ := h.indexRoot (hshows.index idx.name tree hindex)
    simp only [okOr, Result.ok_bind]
    refine .next hroot (.validated ht (.bind (.ofCatalog _) (fun expected _ => ?_)))
    exact .next (.scanIn ht) (.ofCatalog _)

/-- The check of the whole database: no tree fails it, so it comes to the comparison of the
indexes. -/
theorem Represents.validate (h : Represents es f snap) :
    Shows f (PinnedSnapshot.validate ⟨some f.root⟩) snap.crossCheck := by
  obtain ⟨t, ht, -⟩ := h.catalog
  refine .next (.validated ht (.pure ())) (.next h.tables (.forM (fun table _ => ?_)))
  cases hfind : OrdMap.find table snap.tables with
  | none =>
    rw [image_of_none hfind]
    exact .stop (h.table_none hfind)
  | some image =>
    rw [image_of_find hfind]
    obtain ⟨r, t, ht, hes, hroot⟩ := h.dataRoot (h.table table image hfind).data
    refine .next (h.table_eq hfind) (.next hroot (.validated ht (.next (.scanIn ht) ?_)))
    rw [hes]
    exact .forM (fun idx _ => h.validateIndex hfind idx)

end Reads

end TreeJob

/-! ## The check of every state -/

/-- On the pages of a catalog a read returns what it returns of the tables. -/
theorem StoresTables.read {α : Type} {p : Pager BTree.Node} {root : Nat} {snap : CatSnapshot}
    {x : ReadM α} {y : CatResult α} (h : StoresTables p root snap)
    (hx : ∀ es f, f.root = root → TreeJob.Represents es f snap → Shows f x y) :
    ∃ p', StoresTables p' root snap ∧ x p = inState p' (y.mapError TxnError.rejected) := by
  obtain ⟨hp, ts, f, es, hroot, hheld, hrep⟩ := h
  obtain ⟨p', ⟨hp', ts', hheld'⟩, hrun⟩ := hx es f hroot hrep p ⟨hp, ts, hheld⟩
  exact ⟨p', ⟨hp', ts', f, es, hroot, hheld', hrep⟩, hrun⟩

section Between

open TreeJob

variable {s : catalogClient.State} {w : Writer} {freed : List Nat} {snap : CatSnapshot}

/-- The tree at a root is read back as these bindings. -/
def treeReads (p : Pager BTree.Node) (r : Nat) (bindings : TreeContents) : Bool :=
  match BTree.range r none none p with
  | .ok es _ => decide (es = bindings)
  | .error _ _ => false

def slotReads (p : Pager BTree.Node) (es : List BTree.Entry) (k : StoreKey)
    (bindings : TreeContents) : Bool :=
  (slotsOf es k).any (fun r => treeReads p r bindings)

/-- What is stored of an accepted definition. -/
def definitionBytes (def_ : TableDef) : CatResult Bytes := do
  def_.validate
  encodeTable def_

theorem decode_definitionBytes {def_ : TableDef} {bytes : Bytes}
    (h : definitionBytes def_ = .ok bytes) : decodeTable bytes = .ok def_ := by
  obtain ⟨_, hvalid, hbytes⟩ := Result.bind_eq_ok.1 h
  exact decodeTable_of_checks (validateAll_of_validate hvalid) hbytes

/-- A table is read back as its image. -/
def tableReads (p : Pager BTree.Node) (es : List BTree.Entry) (e : String × TableImage) : Bool :=
  decide (e.2.def_.name = e.1) &&
    (entryIn es (.tbl e.1)).any (fun bytes => decide (definitionBytes e.2.def_ = .ok bytes)) &&
    slotReads p es (.root e.1) e.2.data &&
    e.2.indexes.all (fun i => slotReads p es (.iroot e.1 i.1) i.2) &&
    e.2.def_.indexes.all (fun idx => e.2.indexes.any (fun i => i.1 = idx.name))

/-- The tables are read back from the pages under a root. -/
def readsBack (p : Pager BTree.Node) (root : Nat) (snap : CatSnapshot) : Bool :=
  match BTree.range root none none p with
  | .ok es _ =>
      decide (snap.tables.mapM (fun e => definitionBytes e.2.def_) =
        tblBand.map (fun band => (es.filter
          (fun e => BTree.inBounds (some band.1) (some band.2) e.1)).map Prod.snd)) &&
      snap.tables.all (tableReads p es)
  | .error _ _ => false

theorem treeReads_eq {p : Pager BTree.Node} {ts : List BTree.PageTree} {f : Forest} {r : Nat}
    {bindings : TreeContents} (hp : p.Ok) (hheld : Holding p ts f.trees) (hr : f.trees r ≠ none)
    (h : treeReads p r bindings = true) : ∃ t, f.trees r = some t ∧ t.entries = bindings := by
  obtain ⟨t, ht⟩ := Option.ne_none_iff_exists'.1 hr
  obtain ⟨p', hrun, -⟩ := hheld.range_eq hp hr
  rw [treeReads, hrun, ht] at h
  exact ⟨t, ht, of_decide_eq_true h⟩

/-- Between two jobs of a catalog, pages from which tables are read back store them. -/
theorem storesTables_of_readsBack (h : catalogClient.Between s w freed)
    (hreads : readsBack s.pager w.root snap = true) : StoresTables s.pager w.root snap := by
  obtain ⟨hp, ts, f, ⟨es, hes⟩, hroot, hheld⟩ := h.holding
  obtain ⟨t, ht, hentries⟩ := hes.layout.catalog
  obtain ⟨p', hrun, -⟩ := hheld.range_eq hp (r := f.root) (by rw [ht]; exact Option.some_ne_none _)
  rw [ht, Option.map_some, Option.getD_some, hentries, hroot] at hrun
  rw [readsBack, hrun, Bool.and_eq_true, decide_eq_true_eq] at hreads
  obtain ⟨hbytes, htables⟩ := hreads
  obtain ⟨lo, hi, hband, hin⟩ := tblBand_spec
  have hdefs : definitionsOf es = .ok (snap.tables.map (fun e => e.2.def_)) := by
    rw [hband] at hbytes
    have hall := List.forall₂_map_right_iff.1 (Result.mapM_eq_ok.1 hbytes)
    rw [definitionsOf, hband, Result.ok_bind, Result.mapM_eq_ok, List.forall₂_map_right_iff]
    exact hall.flip.imp (fun _ _ h => decode_definitionBytes h)
  have hslot : ∀ {k bindings}, slotReads s.pager es k bindings = true →
      SlotHas es f k bindings := by
    intro k bindings hreads
    obtain ⟨r, hr, htree⟩ := (Option.any_eq_true _ _).1 hreads
    have hcurrent := (hes.layout.current r).2 (.inr ⟨k, hr⟩)
    obtain ⟨t, ht, hbindings⟩ := treeReads_eq hp hheld hcurrent htree
    exact ⟨r, t, hr, ht, hbindings⟩
  refine ⟨hp, ts, f, es, hroot, hheld, ⟨t, ht, hentries⟩, hdefs, ?_, ?_⟩
  · intro table image himage
    have htable := List.all_eq_true.1 htables _ (OrdMap.mem_of_find himage)
    simp only [tableReads, Bool.and_eq_true, decide_eq_true_eq, List.all_eq_true] at htable
    obtain ⟨⟨⟨⟨-, hdef⟩, hdata⟩, hindexes⟩, hnames⟩ := htable
    obtain ⟨bytes, hbytes, hdecode⟩ := (Option.any_eq_true _ _).1 hdef
    rw [decide_eq_true_eq] at hdecode
    replace hdecode := decode_definitionBytes hdecode
    refine ⟨⟨bytes, hbytes, hdecode⟩, hslot hdata,
      fun name tree htree => hslot (hindexes _ (OrdMap.mem_of_find htree)), fun name hnone => ?_⟩
    -- an index with a root is one of the definition, and has its contents
    obtain ⟨def_, hdecode', -, hiroots⟩ := (hes.described table).present bytes hbytes
    cases hdecode.symm.trans hdecode'
    by_contra hentry
    obtain ⟨idx, hidx, rfl⟩ := List.mem_map.1 ((hiroots name).1 hentry)
    obtain ⟨i, hi, hname⟩ := List.any_eq_true.1 (hnames idx hidx)
    exact OrdMap.forall_ne_of_find_eq_none hnone i hi (of_decide_eq_true hname)
  · intro table hnone
    by_contra hentry
    -- a definition that is stored is among those read
    obtain ⟨bytes, hbytes⟩ := Option.ne_none_iff_exists'.1 hentry
    obtain ⟨def_, hdecode, hstored, -⟩ := (hes.described table).present bytes hbytes
    rw [definitionsOf, hband, Result.ok_bind] at hdefs
    have hmem : ((StoreKey.tbl table).bytes, bytes) ∈
        es.filter (fun e => BTree.inBounds (some lo) (some hi) e.1) :=
      List.mem_filter.2 ⟨OrdMap.mem_of_find hbytes, (hin (.tbl table)).2 ⟨table, rfl⟩⟩
    obtain ⟨d, hd, hdecode'⟩ := Result.exists_of_mapM hdefs hmem
    cases hdecode.symm.trans hdecode'
    obtain ⟨e, he, rfl⟩ := List.mem_map.1 hd
    have htable := List.all_eq_true.1 htables e he
    simp only [tableReads, Bool.and_eq_true, decide_eq_true_eq] at htable
    exact OrdMap.forall_ne_of_find_eq_none hnone e he
      (htable.1.1.1.1.symm.trans hstored.name)

end Between

/-- **The check of a database is exact.** On pages that store a state of a run it passes, and then
every index of every table holds exactly the entries of its rows, or it names an index that does
not. -/
theorem validate_exact {ops : List JobOp} {s : CatState} (h : Run ops s) {p : Pager BTree.Node}
    {root : Nat} (hstores : StoresTables p root s.snapshot) :
    ∃ p', (PinnedSnapshot.validate ⟨some root⟩ p = .ok () p' ∧
        ∀ t image, OrdMap.find t s.tables = some image → image.Consistent) ∨
      ∃ t image idx tree,
        PinnedSnapshot.validate ⟨some root⟩ p =
          .error (.rejected (.indexOutOfSync t idx.name)) p' ∧
        OrdMap.find t s.tables = some image ∧ idx ∈ image.def_.indexes ∧
        OrdMap.find idx.name image.indexes = some tree ∧ ¬ image.Holds idx tree := by
  obtain ⟨p', -, hrun⟩ := hstores.read (fun es f hroot hrep => hroot ▸ hrep.validate)
  refine ⟨p', ?_⟩
  rcases crossCheck_exact h with ⟨hok, hall⟩ | ⟨t, image, idx, tree, herror, hnot⟩
  · rw [hok] at hrun
    exact .inl ⟨hrun, hall⟩
  · rw [herror] at hrun
    exact .inr ⟨t, image, idx, tree, hrun, hnot⟩

/-- Two guests, who both move one seat to the right. -/
def movedRight : List JobOp :=
  [.createTable guestsDef,
    .insert "guests" ([1, 2].map (fun i : Int64 => [("id", .i64 i), ("seat", .i64 i)])),
    .updateWhere "guests" (shiftSeats 1)]

namespace TreeJob

def guestKey (i : Int64) : Bytes := component (.i64 i)

def guestPut (id seat : Int64) : TreeEdit :=
  .row (.put (guestKey id) ((encodeRow [.i64 id, .i64 seat]).toOption.getD []))

def seatPut (id seat : Int64) : TreeEdit := .entry 0 (.put (guestKey seat) (guestKey id))

def seatDelete (seat : Int64) : TreeEdit := .entry 0 (.delete (guestKey seat))

/-- What the jobs of the two guests write, row by row. -/
def movedRightRequests : List Request :=
  [.createTable guestsDef,
    .writeRows [⟨"guests", [guestPut 1 1, seatPut 1 1, guestPut 2 2, seatPut 2 2], true, none⟩],
    .writeRows [⟨"guests", [guestPut 1 2, seatDelete 1, seatPut 1 2, guestPut 2 3, seatDelete 2,
      seatPut 2 3], false, none⟩]]

def movedRightPages : catalogClient.Jobs :=
  Prog.advance (WriterOp.exec catalogClient.name) 60
    (applyJobs catalogOpened.2 [] [] (movedRightRequests.map catalogClient.apply), catalogOpened.1)

theorem movedRightPages_returned : movedRightPages.returned =
    some ({ root := 21, pending := [], orphaned := [] },
      [2, 4, 5, 3, 6, 8, 9, 7, 12, 10, 11, 15, 14, 16, 18, 13, 20],
      [.ok (), .ok (), .ok ()]) := by
  decide +kernel

theorem movedRightPages_between : catalogClient.Between movedRightPages.2
    { root := 21, pending := [], orphaned := [] }
    [2, 4, 5, 3, 6, 8, 9, 7, 12, 10, 11, 15, 14, 16, 18, 13, 20] := by
  refine ⟨catalogOpened.1, catalogOpened.1, catalogOpened.2, catalogOpened.2, [],
    movedRightRequests, [.ok (), .ok (), .ok ()], .inl ⟨0, rfl⟩, .refl, ?_⟩
  have hreached : Prog.Reaches (WriterOp.exec catalogClient.name) ReaderStep _ movedRightPages :=
    Prog.reaches_advance 60 _
  rwa [Client.Jobs.eq_of_returned movedRightPages_returned] at hreached

end TreeJob

/-- Whether an index of a state has more or fewer entries than the rows contribute. -/
def someMiscounted (s : CatState) : Bool :=
  s.tables.any (fun e => e.2.def_.indexes.any (fun idx =>
    (OrdMap.find idx.name e.2.indexes).any (fun tree =>
      (rowEntries e.2.def_ idx e.2.data).toOption.any (fun es => tree.length ≠ es.length))))

/-- The guests who moved have pages on which the check names the index of their seats. -/
theorem validate_exact_movedRight : ∃ s t image idx tree p', Run movedRight s ∧
    StoresTables TreeJob.movedRightPages.2.pager 21 s.snapshot ∧
    PinnedSnapshot.validate ⟨some 21⟩ TreeJob.movedRightPages.2.pager =
      .error (.rejected (.indexOutOfSync t idx.name)) p' ∧
    OrdMap.find t s.tables = some image ∧ idx ∈ image.def_.indexes ∧
    OrdMap.find idx.name image.indexes = some tree ∧ ¬ image.Holds idx tree := by
  obtain ⟨s, hrun, htest⟩ := RunWhere.eval (C := Free) tickingEnv 9 movedRight
    (fun s => readsBack TreeJob.movedRightPages.2.pager 21 s.snapshot && someMiscounted s)
    (fun op _ env s => meets_free _ _ _ _) (by decide +kernel)
  rw [Bool.and_eq_true] at htest
  have hstores := storesTables_of_readsBack TreeJob.movedRightPages_between htest.1
  obtain ⟨p', ⟨-, hall⟩ | ⟨t, image, idx, tree, herror, hnot⟩⟩ := validate_exact hrun.run hstores
  · -- no index is miscounted where all are consistent
    obtain ⟨e, he, htest⟩ := List.any_eq_true.1 htest.2
    obtain ⟨idx, hidx, htest⟩ := List.any_eq_true.1 htest
    have himage := (OrdMap.find_eq_some_iff hrun.run.sound.wellFormed.sorted).2 he
    obtain ⟨tree, htree, -, es, hes, hperm⟩ := (hall e.1 e.2 himage).indexes idx hidx
    rw [htree, Option.any_some, hes] at htest
    exact absurd hperm.length_eq (of_decide_eq_true htest)
  · exact ⟨s, t, image, idx, tree, p', hrun.run, hstores, herror, hnot⟩

end Edb.Catalog
