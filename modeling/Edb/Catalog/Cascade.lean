import Edb.Catalog.Ddl
import Edb.Catalog.Rows
import Edb.Types.Order
import Mathlib.Data.Prod.Lex

/-!
# Foreign-key enforcement

The referencing side is checked against the parent's key. On the referenced side the closure
of a removed or changed key is planned first, then checked for RESTRICT, CHECK, NOT NULL and
unique violations, and applied last.
-/

namespace Edb.Catalog

open Edb.Types Edb.Lib

/-! ## The referencing side -/

/-- The cells of named columns, none when one of them is NULL. -/
def keyCells (def_ : TableDef) (row : List Value) : List String → Option (List Value)
  | [] => some []
  | name :: names =>
    let v := (CheckExpr.cell def_ row name).getD .null
    if v.isNull then none else (keyCells def_ row names).map (fun vs => v :: vs)

/-- The referencing values of a foreign key, none when one is NULL. -/
def fkValues (child : TableDef) (fk : ForeignKey) (row : List Value) : Option (List Value) :=
  keyCells child row fk.columns

/-- The referenced values of a foreign key within a parent row, none when one is NULL. -/
def parentKeyOf (parent : TableDef) (fk : ForeignKey) (row : List Value) : Option (List Value) :=
  keyCells parent row fk.parentColumns

/-- Equality of value lists follows the equality of values. -/
def valuesEqv : List Value → List Value → Bool
  | [], [] => true
  | a :: as, b :: bs => a.eqv b && valuesEqv as bs
  | _, _ => false

theorem valuesEqv_iff {as bs : List Value} :
    valuesEqv as bs = true ↔ List.Forall₂ (fun a b => a.eqv b = true) as bs := by
  induction as generalizing bs with
  | nil => cases bs <;> simp [valuesEqv]
  | cons a as ih => cases bs <;> simp [valuesEqv, ih]

theorem valuesEqv_refl (vs : List Value) : valuesEqv vs vs = true :=
  valuesEqv_iff.2 (List.forall₂_same.2 (fun v _ => Value.eqv_refl v))

theorem valuesEqv_symm {as bs : List Value} (h : valuesEqv as bs = true) :
    valuesEqv bs as = true :=
  valuesEqv_iff.2 ((valuesEqv_iff.1 h).flip.imp (fun _ _ hab => Value.eqv_symm hab))

/-- Equality of keys is transitive. -/
theorem valuesEqv_trans {as bs cs : List Value} (h : valuesEqv as bs = true)
    (h' : valuesEqv bs cs = true) : valuesEqv as cs = true := by
  induction as generalizing bs cs with
  | nil =>
    cases bs with
    | nil => exact h'
    | cons b bs => cases h
  | cons a as ih =>
    cases bs with
    | nil => cases h
    | cons b bs =>
      cases cs with
      | nil => cases h'
      | cons c cs =>
        rw [valuesEqv, Bool.and_eq_true] at h h' ⊢
        exact ⟨Value.eqv_trans h.1 h'.1, ih h.2 h'.2⟩

/-- Equal lists hold equal values at each position. -/
theorem valuesEqv_getElem? {as bs : List Value} (h : valuesEqv as bs = true) {i : Nat} {a : Value}
    (ha : as[i]? = some a) : ∃ b, bs[i]? = some b ∧ a.eqv b = true := by
  obtain ⟨hlen, hget⟩ := List.forall₂_iff_get.1 (valuesEqv_iff.1 h)
  obtain ⟨hi, rfl⟩ := List.getElem?_eq_some_iff.1 ha
  have hi' : i < bs.length := hlen ▸ hi
  exact ⟨bs[i], List.getElem?_eq_getElem hi', hget i hi hi'⟩

/-- Equality of optional value lists. -/
def optEqv : Option (List Value) → Option (List Value) → Bool
  | some a, some b => valuesEqv a b
  | none, none => true
  | _, _ => false

/-- The unique index a foreign key refers to. -/
def referencedIndex (parent : TableDef) (fk : ForeignKey) : CatResult IndexDef :=
  okOr (.invalidSchema ("foreign key \"" ++ fk.name ++ "\" lost its referenced unique index"))
    (parent.indexes.find? (fun i => i.unique && i.columns = fk.parentColumns))

/-- Whether a parent row with these key values exists. -/
def parentKeyExists (s : CatState) (fk : ForeignKey) (vals : List Value) : JobResult Bool := do
  let parent ← s.load fk.parent
  if parent.def_.pk = fk.parentColumns then do
    let key ← rej (ofType (encodeKey vals))
    pure (OrdMap.find key parent.data).isSome
  else do
    let idx ← rej (referencedIndex parent.def_ fk)
    let tree ← parent.indexTree idx.name
    let key ← rej (ofType (encodeKey vals))
    pure (OrdMap.find key tree).isSome

/-- One foreign key of a freshly built row. A self-reference to the primary key may be
satisfied by a row staged earlier in the statement. -/
def checkInsertFk (s : CatState) (child : TableDef) (row : List Value) (staged : List Bytes)
    (fk : ForeignKey) : JobResult Unit :=
  match fkValues child fk row with
  | none => .ok ()
  | some vals => do
    let inBatch ← if fk.parent = child.name && fk.parentColumns = child.pk then do
        let key ← rej (ofType (encodeKey vals))
        pure (staged.contains key)
      else .ok false
    if inBatch then pure ()
    else do
      let there ← parentKeyExists s fk vals
      rej (require there (.foreignKeyViolation child.name fk.name))

def checkInsertFks (s : CatState) (child : TableDef) (row : List Value) (staged : List Bytes) :
    JobResult Unit :=
  child.foreignKeys.forM (checkInsertFk s child row staged)

/-- One foreign key of an updated row, when its referencing columns changed. -/
def checkUpdateFk (s : CatState) (child : TableDef) (oldRow newRow : List Value)
    (fk : ForeignKey) : JobResult Unit :=
  match fkValues child fk newRow with
  | none => .ok ()
  | some vals =>
    if optEqv (fkValues child fk oldRow) (some vals) then .ok ()
    else do
      let there ← parentKeyExists s fk vals
      rej (require there (.foreignKeyViolation child.name fk.name))

def checkUpdateFks (s : CatState) (child : TableDef) (oldRow newRow : List Value) :
    JobResult Unit :=
  child.foreignKeys.forM (checkUpdateFk s child oldRow newRow)

/-! ## The referenced side -/

/-- The rows of some candidates that refer to key values. -/
def keepReferring (child : TableDef) (fk : ForeignKey) (keyVals : List Value) :
    List (Bytes × Bytes) → JobResult (List (Bytes × List Value))
  | [] => .ok []
  | (pkKey, bytes) :: rest => do
    let row ← rej (decodePadded child bytes)
    let kept ← keepReferring child fk keyVals rest
    pure (if optEqv (fkValues child fk row) (some keyVals) then (pkKey, row) :: kept else kept)

/-- The stored rows index entries point at. -/
def resolveEntries (data : TreeContents) (entries : TreeContents) : TreeContents :=
  entries.filterMap (fun e => (OrdMap.find e.2 data).map (fun bytes => (e.2, bytes)))

/-- The rows of a child that refer to key values, by an index that starts with the
referencing columns when there is one. -/
def scanChildren (s : CatState) (child : TableDef) (fk : ForeignKey) (keyVals : List Value) :
    JobResult (List (Bytes × List Value)) := do
  let image ← s.load child.name
  match child.indexes.find? (fun i => fk.columns.isPrefixOf i.columns) with
  | some idx => do
    let tree ← image.indexTree idx.name
    let (lo, hi) ← rej (ofType (prefixBounds keyVals))
    keepReferring child fk keyVals (resolveEntries image.data (CatSnapshot.rangeIn lo hi tree))
  | none => keepReferring child fk keyVals image.data

/-- A row with the referencing columns set to new values, or to NULL. -/
def setFkColumns (child : TableDef) (row : List Value) :
    List String → List Value → List Value
  | [], _ => row
  | name :: names, vals =>
    let row := match child.colIndex name with
      | some ci => row.set ci (vals.headD .null)
      | none => row
    setFkColumns child row names vals.tail

/-- A parent row whose referenced key disappears: deleted, or rewritten. -/
structure CascadeEffect where
  table : String
  oldRow : List Value
  newRow : Option (List Value)
  deriving DecidableEq, Repr

/-- A row addressed by its table and encoded primary key. -/
abbrev RowRef := String ×ₗ Bytes

/-- The closure of referential effects. -/
structure Cascade where
  deletes : List (RowRef × List Value)
  rewrites : List (RowRef × (List Value × List Value))
  effects : List CascadeEffect

/-- What a foreign key does with children of an effect, with the key that disappears; none
when it does nothing. -/
def fkAction (parent : TableDef) (fk : ForeignKey) (eff : CascadeEffect) :
    Option (RefAction × List Value) :=
  if fk.parent ≠ eff.table then none
  else
    match parentKeyOf parent fk eff.oldRow with
    | none => none
    | some oldKey =>
      match eff.newRow with
      | none => some (fk.onDelete, oldKey)
      | some newRow =>
        if optEqv (parentKeyOf parent fk newRow) (some oldKey) then none
        else some (fk.onUpdate, oldKey)

/-- The referencing values a rewritten child gets; empty stands for NULLs. -/
def rewrittenKey (parent : TableDef) (fk : ForeignKey) (eff : CascadeEffect)
    (action : RefAction) : List Value :=
  if action = .cascade then
    match eff.newRow with
    | some newRow => (parentKeyOf parent fk newRow).getD []
    | none => []
  else []

/-- Equality of rows in the planner. -/
def rowsEqv (a b : List Value) : Bool := valuesEqv a b

/-- One child row of an effect: doomed, rewritten, or already dealt with. The new effect, if
any, goes to the queue. -/
def planChild (parent child : TableDef) (fk : ForeignKey) (eff : CascadeEffect)
    (action : RefAction) (plan : Cascade) (pkKey : Bytes) (row : List Value) :
    Cascade × List CascadeEffect :=
  let key : RowRef := toLex (child.name, pkKey)
  if (OrdMap.find key plan.deletes).isSome then (plan, [])
  else if action = .cascade && eff.newRow.isNone then
    ({ plan with
        rewrites := OrdMap.erase key plan.rewrites
        deletes := OrdMap.insert key row plan.deletes },
      [⟨child.name, row, none⟩])
  else
    -- accumulate onto a rewrite already planned for this row
    let earlier := (OrdMap.find key plan.rewrites).map Prod.snd
    let newRow := setFkColumns child (earlier.getD row) fk.columns
      (rewrittenKey parent fk eff action)
    ({ plan with rewrites := OrdMap.insert key (row, newRow) plan.rewrites },
      if earlier.any (fun n => rowsEqv n newRow) then [] else [⟨child.name, row, some newRow⟩])

/-- The children of an effect by one foreign key. -/
def planChildren (parent child : TableDef) (fk : ForeignKey) (eff : CascadeEffect)
    (action : RefAction) :
    Cascade × List CascadeEffect → List (Bytes × List Value) → Cascade × List CascadeEffect
  | acc, [] => acc
  | (plan, queue), (pkKey, row) :: rest =>
    let (plan', new) := planChild parent child fk eff action plan pkKey row
    planChildren parent child fk eff action (plan', queue ++ new) rest

/-- An effect by one foreign key. RESTRICT is left to its own pass. -/
def planFk (s : CatState) (parent child : TableDef) (eff : CascadeEffect)
    (acc : Cascade × List CascadeEffect) (fk : ForeignKey) :
    JobResult (Cascade × List CascadeEffect) :=
  match fkAction parent fk eff with
  | none => .ok acc
  | some (.restrict, _) => .ok acc
  | some (action, oldKey) => do
    let children ← scanChildren s child fk oldKey
    pure (planChildren parent child fk eff action acc children)

/-- An effect over every foreign key of every table. -/
def planEffect (s : CatState) (tables : List TableDef) (parent : TableDef) (eff : CascadeEffect)
    (acc : Cascade × List CascadeEffect) : JobResult (Cascade × List CascadeEffect) :=
  tables.foldlM (fun acc child => child.foreignKeys.foldlM (planFk s parent child eff) acc) acc

/-- The worklist loop. -/
def planLoop (s : CatState) (tables : List TableDef) :
    Nat → Cascade → List CascadeEffect → JobResult Cascade
  | _, plan, [] => .ok plan
  | 0, _, _ :: _ => .error .outOfFuel
  | fuel + 1, plan, eff :: queue =>
    match tables.find? (fun t => t.name = eff.table) with
    | none => planLoop s tables fuel plan queue
    | some parent => do
      let (plan, queue) ← planEffect s tables parent eff (plan, queue)
      planLoop s tables fuel { plan with effects := plan.effects ++ [eff] } queue

/-- The deletes and effects the seeds of a delete start with; a row is seeded once. -/
def seedDeletes : Cascade × List CascadeEffect → List (String × Bytes × List Value) →
    Cascade × List CascadeEffect
  | acc, [] => acc
  | (plan, queue), (table, pkKey, row) :: rest =>
    let key : RowRef := toLex (table, pkKey)
    let queue := if (OrdMap.find key plan.deletes).isSome then queue
      else queue ++ [⟨table, row, none⟩]
    seedDeletes ({ plan with deletes := OrdMap.insert key row plan.deletes }, queue) rest

/-- Plan the closure of deleted and of changed rows. -/
def planCascade (s : CatState) (tables : List TableDef) (fuel : Nat)
    (deleteSeeds : List (String × Bytes × List Value))
    (changeSeeds : List (String × List Value × List Value)) : JobResult Cascade :=
  let (plan, queue) := seedDeletes (⟨[], [], []⟩, []) deleteSeeds
  planLoop s tables fuel plan
    (queue ++ changeSeeds.map (fun (table, oldRow, newRow) => ⟨table, oldRow, some newRow⟩))

/-! ### Checks over a planned closure -/

/-- The child rows that survive on a disappearing key. -/
def survives (child : TableDef) (fk : ForeignKey) (plan : Cascade) (oldKey : List Value)
    (pkKey : Bytes) (row : List Value) : Bool :=
  let key : RowRef := toLex (child.name, pkKey)
  (OrdMap.find key plan.deletes).isNone &&
    optEqv (fkValues child fk (((OrdMap.find key plan.rewrites).map Prod.snd).getD row))
      (some oldKey)

/-- RESTRICT for one foreign key and one effect. -/
def restrictFk (s : CatState) (parent child : TableDef) (plan : Cascade) (eff : CascadeEffect)
    (fk : ForeignKey) : JobResult Unit :=
  match fkAction parent fk eff with
  | some (.restrict, oldKey) => do
    let children ← scanChildren s child fk oldKey
    rej (require (!children.any (fun c => survives child fk plan oldKey c.1 c.2))
      (.referencedByChildren child.name fk.name))
  | _ => .ok ()

def restrictEffect (s : CatState) (tables : List TableDef) (plan : Cascade)
    (eff : CascadeEffect) : JobResult Unit :=
  match tables.find? (fun t => t.name = eff.table) with
  | none => .ok ()
  | some parent =>
    tables.forM (fun child => child.foreignKeys.forM (restrictFk s parent child plan eff))

/-- No surviving child refers to a disappearing key by a RESTRICT foreign key. -/
def checkCascadeRestrict (s : CatState) (tables : List TableDef) (plan : Cascade) :
    JobResult Unit :=
  plan.effects.forM (restrictEffect s tables plan)

/-- NULL only in nullable columns. -/
def checkNotNull (def_ : TableDef) (row : List Value) : CatResult Unit :=
  row.zipIdx.forM (fun (cell, ci) =>
    require (!cell.isNull || def_.isNullable ci)
      (.notNull def_.name ((def_.columns[ci]?.map ColumnDef.name).getD "")))

/-- The constraints of one rewritten row. -/
def checkRewrite (tables : List TableDef) (r : RowRef × (List Value × List Value)) :
    JobResult Unit :=
  match tables.find? (fun t => t.name = (ofLex r.1).1) with
  | none => .ok ()
  | some def_ => do
    rej (runChecks def_ r.2.2)
    rej (checkNotNull def_ r.2.2)

/-- The entry of a row in an index moves: the old and the new one, none when it stays. -/
def moved (def_ : TableDef) (idx : IndexDef) (pkKey : Bytes) (oldRow newRow : List Value) :
    JobResult (Option (Option Entry × Option Entry)) := do
  let oldE ← entryFor def_ idx oldRow pkKey
  let newE ← entryFor def_ idx newRow pkKey
  pure (if oldE.map Entry.key = newE.map Entry.key then none else some (oldE, newE))

/-- A unique key within a closure: its table, index and bytes. -/
structure UniqueKey where
  table : String
  index : String
  key : Bytes
  deriving DecidableEq, Repr

def uniqueKey (table : String) (idx : IndexDef) (e : Entry) : UniqueKey := ⟨table, idx.name, e.key⟩

/-- The unique keys a deleted row frees. -/
def freedByDelete (tables : List TableDef) (d : RowRef × List Value) :
    JobResult (List UniqueKey) :=
  match tables.find? (fun t => t.name = (ofLex d.1).1) with
  | none => .ok []
  | some def_ => do
    let entries ← (def_.indexes.filter (fun i => i.unique)).mapM (fun idx => do
      let e ← entryFor def_ idx d.2 (ofLex d.1).2
      pure (e.map (uniqueKey def_.name idx)))
    pure (entries.filterMap id)

/-- The unique keys a rewritten row frees and takes. -/
def movedByRewrite (tables : List TableDef) (r : RowRef × (List Value × List Value)) :
    JobResult (List (Option UniqueKey × Option UniqueKey)) :=
  match tables.find? (fun t => t.name = (ofLex r.1).1) with
  | none => .ok []
  | some def_ => do
    let moves ← (def_.indexes.filter (fun i => i.unique)).mapM (fun idx => do
      let m ← moved def_ idx (ofLex r.1).2 r.2.1 r.2.2
      pure (m.map (fun m => (m.1.map (uniqueKey def_.name idx),
        m.2.map (uniqueKey def_.name idx)))))
    pure (moves.filterMap id)

/-- No taken key is held by a surviving row or taken twice. -/
def checkTaken (s : CatState) (freed : List UniqueKey) :
    List UniqueKey → List UniqueKey → JobResult Unit
  | _, [] => .ok ()
  | seen, k :: rest => do
    let image ← s.load k.table
    let tree ← image.indexTree k.index
    if ((OrdMap.find k.key tree).isSome && !freed.contains k) || seen.contains k then
      .error (.rejected (.uniqueViolation k.table k.index))
    else checkTaken s freed (k :: seen) rest

/-- The constraints of every planned rewrite: CHECK, NOT NULL and unique indexes. -/
def validateCascadeRewrites (s : CatState) (tables : List TableDef) (plan : Cascade) :
    JobResult Unit := do
  plan.rewrites.forM (checkRewrite tables)
  let deleted ← plan.deletes.mapM (freedByDelete tables)
  let moves ← plan.rewrites.mapM (movedByRewrite tables)
  let freed := deleted.flatten ++ moves.flatten.filterMap Prod.fst
  checkTaken s freed [] (moves.flatten.filterMap Prod.snd)

/-! ### Applying a closure -/

/-- Remove an entry from its index, by its key. -/
def removeEntry (image : TableImage) (idx : IndexDef) : Option Entry → JobResult TableImage
  | none => .ok image
  | some e => image.editIndex idx.name (fun tree => .ok (OrdMap.erase e.key tree))

def insertEntry (image : TableImage) (idx : IndexDef) : Option Entry → JobResult TableImage
  | none => .ok image
  | some e => image.editIndex idx.name (treeInsert e.key e.value)

/-- Move a row's entry in one index from an old to a new place. -/
def moveEntry (image : TableImage) (idx : IndexDef) (oldE newE : Option Entry) :
    JobResult TableImage := do
  let image ← removeEntry image idx oldE
  insertEntry image idx newE

/-- Delete one row and the entries it contributes. -/
def deleteRowIndexed (s : CatState) (def_ : TableDef) (pkKey : Bytes) (row : List Value) :
    JobResult CatState := do
  let image ← s.load def_.name
  image.loadIndexes
  let image := { image with data := OrdMap.erase pkKey image.data }
  let image ← def_.indexes.foldlM (fun image idx => do
    let e ← entryFor def_ idx row pkKey
    removeEntry image idx e) image
  pure (s.store def_.name image)

/-- Rewrite one row in place and move its changed entries. -/
def rewriteRowIndexed (s : CatState) (def_ : TableDef) (pkKey : Bytes)
    (oldRow newRow : List Value) : JobResult CatState := do
  let image ← s.load def_.name
  image.loadIndexes
  let bytes ← rej (ofType (encodeRow newRow))
  let data ← treeInsert pkKey bytes image.data
  let image ← def_.indexes.foldlM (fun image idx => do
    match ← moved def_ idx pkKey oldRow newRow with
    | none => pure image
    | some (oldE, newE) => moveEntry image idx oldE newE) { image with data }
  pure (s.store def_.name image)

/-- Apply a planned closure: the deletes, then the rewrites. -/
def applyCascade (s : CatState) (tables : List TableDef) (plan : Cascade) :
    JobResult CatState := do
  let s ← plan.deletes.foldlM (fun s d =>
    match tables.find? (fun t => t.name = (ofLex d.1).1) with
    | none => .ok s
    | some def_ => deleteRowIndexed s def_ (ofLex d.1).2 d.2) s
  plan.rewrites.foldlM (fun s r =>
    match tables.find? (fun t => t.name = (ofLex r.1).1) with
    | none => .ok s
    | some def_ => rewriteRowIndexed s def_ (ofLex r.1).2 r.2.1 r.2.2) s

end Edb.Catalog
