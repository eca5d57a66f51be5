import Edb.Catalog.Cascade

/-!
# Catalog jobs

Definition and row jobs as one write transaction each, under the validate-then-apply
contract: every probe and check is made before the first tree is changed. Indexes are
maintained in the same job as the rows.
-/

namespace Edb.Catalog

open Edb.Types Edb.Lib

/-- Selects rows for a conditional write. -/
abbrev RowFilter := TableDef → List Value → CatResult Bool

/-- A filter and the new values of the rows it matches. -/
structure RowUpdater where
  selects : RowFilter
  newValues : TableDef → List Value → CatResult (List (String × Value))

/-- One write of an atomic transaction. -/
inductive WriteSpec where
  | insert (table : String) (rows : List (List (String × Value)))
  | update (table : String) (policy : RowUpdater)
  | delete (table : String) (filter : RowFilter)

/-- One catalog write transaction. -/
inductive JobOp where
  | createTable (def_ : TableDef)
  | dropTable (table : String)
  | addColumn (table : String) (column : ColumnDef)
  | createIndex (table : String) (index : IndexDef)
  | dropIndex (table index : String)
  | insert (table : String) (rows : List (List (String × Value)))
  | update (table : String) (pk : List Value) (sets : List (String × Value))
  | delete (table : String) (pk : List Value)
  | updateWhere (table : String) (policy : RowUpdater)
  | deleteWhere (table : String) (filter : RowFilter)
  | batch (specs : List WriteSpec)

/-- A job's output. -/
inductive JobOut where
  | unit
  | rows (rows : List (List Value))
  | row (row : List Value)
  | deleted (done : Bool)
  | affected (count : Nat)
  | batch (counts : List Nat)
  deriving DecidableEq, Repr

/-! ## Insert -/

/-- A row ready to be written. -/
structure StagedRow where
  pkKey : Bytes
  bytes : Bytes
  entries : List (IndexDef × Entry)
  row : List Value

/-- The rows staged so far, the unique keys they take and the sequence. -/
structure Staged where
  rows : List StagedRow
  unique : List (String × Bytes)
  seq : Int64

def Staged.pks (st : Staged) : List Bytes := st.rows.map StagedRow.pkKey

/-- The entries of a new row, with the unique ones probed against the index and the rows
staged before. -/
def stageEntries (image : TableImage) (row : List Value) (pkKey : Bytes)
    (taken : List (String × Bytes)) : List IndexDef → JobResult (List (IndexDef × Entry))
  | [] => .ok []
  | idx :: idxs => do
    match ← entryFor image.def_ idx row pkKey with
    | none => stageEntries image row pkKey taken idxs
    | some e => do
      if idx.unique then do
        let tree ← image.indexTree idx.name
        if (OrdMap.find e.key tree).isSome || taken.contains (idx.name, e.key) then
          .error (.rejected (.uniqueViolation image.def_.name idx.name))
        else pure ()
      else pure ()
      checkFits e.key e.value
      let rest ← stageEntries image row pkKey taken idxs
      pure ((idx, e) :: rest)

/-- Validate one input row and stage it. -/
def stageRow (env : Env) (s : CatState) (image : TableImage) (st : Staged)
    (provided : List (String × Value)) : JobResult Staged := do
  let (row, seq) ← rej (buildRow env st.rows.length image.def_ provided st.seq)
  rej (runChecks image.def_ row)
  checkInsertFks s image.def_ row st.pks
  let pkKey ← rej (pkKeyOf image.def_ row)
  rej (require (!(st.pks.contains pkKey || (OrdMap.find pkKey image.data).isSome))
    (.duplicateKey image.def_.name))
  let entries ← stageEntries image row pkKey st.unique image.def_.indexes
  let bytes ← rej (ofType (encodeRow row))
  checkFits pkKey bytes
  pure ⟨st.rows ++ [⟨pkKey, bytes, entries, row⟩],
    st.unique ++ (entries.filter (fun e => e.1.unique)).map (fun e => (e.1.name, e.2.key)), seq⟩

/-- Write one staged row and its entries. -/
def applyStaged (image : TableImage) (r : StagedRow) : JobResult TableImage := do
  let data ← treeInsert r.pkKey r.bytes image.data
  r.entries.foldlM (fun image e => insertEntry image e.1 (some e.2)) { image with data }

/-- The sequence a statement starts from. -/
def startSeq (s : CatState) (def_ : TableDef) : Int64 :=
  if def_.columns.any (fun c => c.autoIncrement) then s.loadSeq def_.name else 0

def insert (env : Env) (s : CatState) (table : String)
    (input : List (List (String × Value))) : JobResult (List (List Value) × CatState) := do
  let image ← s.load table
  image.loadIndexes
  let seq := startSeq s image.def_
  let st ← input.foldlM (stageRow env s image) ⟨[], [], seq⟩
  let image ← st.rows.foldlM applyStaged image
  let s := s.store table image
  let s := if st.seq ≠ seq then s.storeSeq table st.seq else s
  pure (st.rows.map StagedRow.row, s)

/-! ## Update -/

/-- A validated change of one row: its new bytes and the entries that move. -/
structure RowDelta where
  pkKey : Bytes
  bytes : Bytes
  moves : List (IndexDef × Option Entry × Option Entry)
  oldRow : List Value
  newRow : List Value

/-- The check of an entry that arrives in an index. -/
abbrev EntryCheck := IndexDef → Entry → JobResult Unit

/-- The entries that move between two forms of a row, each that arrives checked in its turn. -/
def rowMoves (check : EntryCheck) (def_ : TableDef) (pkKey : Bytes) (oldRow newRow : List Value) :
    List IndexDef → JobResult (List (IndexDef × Option Entry × Option Entry))
  | [] => .ok []
  | idx :: idxs => do
    let m ← moved def_ idx pkKey oldRow newRow
    (m.bind Prod.snd).elim (.ok ()) (check idx)
    let rest ← rowMoves check def_ pkKey oldRow newRow idxs
    pure (m.toList.map (fun m => (idx, m)) ++ rest)

/-- The new form of a row, with its own and its foreign-key checks. -/
def newForm (now : Int64) (s : CatState) (table : String) (def_ : TableDef)
    (oldRow : List Value) (sets : List (String × Value)) : JobResult (List Value) := do
  let row ← rej (transformRow now table def_ oldRow sets)
  rej (runChecks def_ row)
  checkUpdateFks s def_ oldRow row
  pure row

/-- What is written of a row that takes a new form. -/
def rowDelta (check : EntryCheck) (def_ : TableDef) (pkKey : Bytes) (oldRow row : List Value) :
    JobResult RowDelta := do
  let moves ← rowMoves check def_ pkKey oldRow row def_.indexes
  let bytes ← rej (ofType (encodeRow row))
  checkFits pkKey bytes
  pure ⟨pkKey, bytes, moves, oldRow, row⟩

/-- The new form of a row and what is written of it. -/
def changeRow (check : EntryCheck) (now : Int64) (s : CatState) (table : String) (def_ : TableDef)
    (pkKey : Bytes) (oldRow : List Value) (sets : List (String × Value)) : JobResult RowDelta := do
  let row ← newForm now s table def_ oldRow sets
  rowDelta check def_ pkKey oldRow row

/-- Write one changed row and move its entries. -/
def applyDelta (image : TableImage) (d : RowDelta) : JobResult TableImage := do
  let data ← treeInsert d.pkKey d.bytes image.data
  d.moves.foldlM (fun image m => moveEntry image m.1 m.2.1 m.2.2) { image with data }

/-- The unique keys that leave, or that arrive, in a statement. -/
def leaving (deltas : List RowDelta) : List (String × Bytes) :=
  deltas.flatMap (fun d => d.moves.filterMap (fun m => m.2.1.map (fun e => (m.1.name, e.key))))

def arriving (deltas : List RowDelta) : List (String × Bytes) :=
  deltas.flatMap (fun d => (d.moves.filter (fun m => m.1.unique)).filterMap
    (fun m => m.2.2.map (fun e => (m.1.name, e.key))))

/-- A unique key of one changed row is free; the row's own entry sits at the old key. -/
def probeArriving (table : String) (image : TableImage) : EntryCheck := fun idx e => do
  if idx.unique then do
    let tree ← image.indexTree idx.name
    rej (require (OrdMap.find e.key tree).isNone (.uniqueViolation table idx.name))
  else pure ()
  checkFits e.key e.value

/-- A unique key is not one that a row before has taken. -/
def joinArriving (table : String) (added : List (String × Bytes)) : EntryCheck := fun idx e => do
  checkFits e.key e.value
  rej (require (!(idx.unique && added.contains (idx.name, e.key)))
    (.uniqueViolation table idx.name))

/-- No unique key arrives at one held by a row whose key stays. -/
def checkArriving (table : String) (image : TableImage) (gone added : List (String × Bytes)) :
    JobResult Unit :=
  (image.def_.indexes.filter (fun idx => idx.unique)).forM (fun idx => do
    let tree ← image.indexTree idx.name
    (added.filter (fun x => x.1 = idx.name)).forM (fun x =>
      rej (require ((OrdMap.find x.2 tree).isNone || gone.contains x)
        (.uniqueViolation table idx.name))))

/-- The closure of changed rows, planned and validated; none when no unique index could be
referenced. -/
def planChanges (fuel : Nat) (s : CatState) (def_ : TableDef)
    (changes : List (String × List Value × List Value)) : JobResult (Option Cascade) :=
  if def_.indexes.any (fun i => i.unique) then do
    let plan ← planCascade s s.allTables fuel [] changes
    checkCascadeRestrict s s.allTables plan
    validateCascadeRewrites s s.allTables plan
    pure (some plan)
  else .ok none

/-- The closure of a statement's changed rows. -/
def planReferential (fuel : Nat) (s : CatState) (table : String) (def_ : TableDef)
    (deltas : List RowDelta) : JobResult (Option Cascade) :=
  planChanges fuel s def_ (deltas.map (fun d => (table, d.oldRow, d.newRow)))

/-- Apply a planned closure, if there is one. -/
def applyReferential (s : CatState) (tables : List TableDef) : Option Cascade → JobResult CatState
  | none => .ok s
  | some plan => applyCascade s tables plan

/-- Write a statement's changed rows, then the closure. -/
def applyDeltas (s : CatState) (table : String) (image : TableImage) (deltas : List RowDelta)
    (referential : Option Cascade) : JobResult CatState := do
  let image ← deltas.foldlM applyDelta image
  applyReferential (s.store table image) s.allTables referential

/-- Update one row by primary key. -/
def update (env : Env) (fuel : Nat) (s : CatState) (table : String) (pk : List Value)
    (sets : List (String × Value)) : JobResult (List Value × CatState) := do
  let image ← s.load table
  image.loadIndexes
  let pkKey ← rej (encodePk table image.def_ pk)
  let bytes ← rej (okOr (.rowNotFound table) (OrdMap.find pkKey image.data))
  let oldRow ← rej (decodePadded image.def_ bytes)
  let row ← newForm (env.now 0 0) s table image.def_ oldRow sets
  -- the closure is planned and checked before the row's own keys and size
  let referential ← planChanges fuel s image.def_ [(table, oldRow, row)]
  let delta ← rowDelta (probeArriving table image) image.def_ pkKey oldRow row
  let s ← applyDeltas s table image [delta] referential
  pure (row, s)

/-- The changes of the rows a policy matches, in key order; `added` are the unique keys that
the rows before take. -/
def matchRows (env : Env) (s : CatState) (table : String) (def_ : TableDef)
    (policy : RowUpdater) :
    Nat → List (String × Bytes) → TreeContents → JobResult (List RowDelta)
  | _, _, [] => .ok []
  | ordinal, added, (pkKey, bytes) :: rest => do
    let oldRow ← rej (decodePadded def_ bytes)
    if ← rej (policy.selects def_ oldRow) then do
      let sets ← rej (policy.newValues def_ oldRow)
      let delta ← changeRow (joinArriving table added) (env.now ordinal 0) s table def_ pkKey
        oldRow sets
      let deltas ← matchRows env s table def_ policy (ordinal + 1) (added ++ arriving [delta]) rest
      pure (delta :: deltas)
    else matchRows env s table def_ policy ordinal added rest

/-- Update the rows a policy matches. -/
def updateWhere (env : Env) (fuel : Nat) (s : CatState) (table : String) (policy : RowUpdater) :
    JobResult (Nat × CatState) := do
  let image ← s.load table
  image.loadIndexes
  let deltas ← matchRows env s table image.def_ policy 0 [] image.data
  checkArriving table image (leaving deltas) (arriving deltas)
  let referential ← planReferential fuel s table image.def_ deltas
  let s ← applyDeltas s table image deltas referential
  pure (deltas.length, s)

/-! ## Delete -/

/-- Plan, validate and apply the closure of deleted rows. -/
def deleteSeeds (fuel : Nat) (s : CatState) (seeds : List (String × Bytes × List Value)) :
    JobResult CatState := do
  let plan ← planCascade s s.allTables fuel seeds []
  checkCascadeRestrict s s.allTables plan
  validateCascadeRewrites s s.allTables plan
  applyCascade s s.allTables plan

/-- Delete one row by primary key. -/
def delete (fuel : Nat) (s : CatState) (table : String) (pk : List Value) :
    JobResult (Bool × CatState) := do
  let image ← s.load table
  let pkKey ← rej (encodePk table image.def_ pk)
  match OrdMap.find pkKey image.data with
  | none => pure (false, s)
  | some bytes => do
    let row ← rej (decodePadded image.def_ bytes)
    let s ← deleteSeeds fuel s [(table, pkKey, row)]
    pure (true, s)

/-- The rows a filter matches. -/
def seedRows (table : String) (def_ : TableDef) (filter : RowFilter) :
    TreeContents → JobResult (List (String × Bytes × List Value))
  | [] => .ok []
  | (pkKey, bytes) :: rest => do
    let row ← rej (decodePadded def_ bytes)
    let hit ← rej (filter def_ row)
    let seeds ← seedRows table def_ filter rest
    pure (if hit then (table, pkKey, row) :: seeds else seeds)

/-- Delete the rows a filter matches. -/
def deleteWhere (fuel : Nat) (s : CatState) (table : String) (filter : RowFilter) :
    JobResult (Nat × CatState) := do
  let image ← s.load table
  let seeds ← seedRows table image.def_ filter image.data
  if seeds.isEmpty then pure (0, s)
  else do
    let s ← deleteSeeds fuel s seeds
    pure (seeds.length, s)

/-! ## Jobs -/

/-- One write of a transaction: the rows it affected and the state after it. -/
def applySpec (env : Env) (fuel : Nat) (s : CatState) : WriteSpec → JobResult (Nat × CatState)
  | .insert table rows => do
    let (out, s) ← insert env s table rows
    pure (out.length, s)
  | .update table policy => updateWhere env fuel s table policy
  | .delete table filter => deleteWhere fuel s table filter

/-- The writes of a transaction, each on the state the ones before left. Every write has its
own readings of the clock. -/
def batch (envs : Nat → Env) (fuel : Nat) : Nat → CatState → List WriteSpec →
    JobResult (List Nat × CatState)
  | _, s, [] => .ok ([], s)
  | i, s, spec :: specs => do
    let (count, s) ← applySpec (envs i) fuel s spec
    let (counts, s) ← batch envs fuel (i + 1) s specs
    pure (count :: counts, s)

/-- Apply a job to a state. -/
def apply (envs : Nat → Env) (fuel : Nat) (s : CatState) : JobOp → JobResult (JobOut × CatState)
  | .createTable def_ => do
    let s ← createTable s def_
    pure (.unit, s)
  | .dropTable table => do
    let s ← dropTable s table
    pure (.unit, s)
  | .addColumn table column => do
    let s ← addColumn s table column
    pure (.unit, s)
  | .createIndex table index => do
    let s ← createIndex s table index
    pure (.unit, s)
  | .dropIndex table index => do
    let s ← dropIndex s table index
    pure (.unit, s)
  | .insert table rows => do
    let (rows, s) ← insert (envs 0) s table rows
    pure (.rows rows, s)
  | .update table pk sets => do
    let (row, s) ← update (envs 0) fuel s table pk sets
    pure (.row row, s)
  | .delete table pk => do
    let (done, s) ← delete fuel s table pk
    pure (.deleted done, s)
  | .updateWhere table policy => do
    let (count, s) ← updateWhere (envs 0) fuel s table policy
    pure (.affected count, s)
  | .deleteWhere table filter => do
    let (count, s) ← deleteWhere fuel s table filter
    pure (.affected count, s)
  | .batch specs => do
    let (counts, s) ← batch envs fuel 0 s specs
    pure (.batch counts, s)

/-- A job commits: it runs to a state, with whatever readings and however long it takes. -/
def Commits (s : CatState) (op : JobOp) (s' : CatState) : Prop :=
  ∃ envs fuel out, apply envs fuel s op = .ok (out, s')

/-- The states a run of committed jobs goes through. -/
inductive Run : List JobOp → CatState → Prop
  | nil : Run [] .empty
  | snoc {ops : List JobOp} {s s' : CatState} {op : JobOp} (hr : Run ops s)
      (hc : Commits s op s') : Run (ops ++ [op]) s'

end Edb.Catalog
