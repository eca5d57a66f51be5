import Edb.Catalog.Snapshot
import Edb.Query.Eval
import Mathlib.Data.List.Sort

/-!
# The reference executor

A brute-force interpreter of the plan over a snapshot: every intermediate relation is
materialised in full, joins are nested loops, grouping, sorting and removing duplicates
happen in memory.
-/

namespace Edb.Query

open Edb.Types Edb.Proto Edb.Catalog

/-- A materialised relation: the columns and the rows. -/
structure Relation where
  shape : Shape
  rows : List Row
  deriving DecidableEq, Repr

/-- How execution can fail. `panicked` stands for a call that does not return: an index out of
range, or a sort by a comparison that is no order. -/
inductive ExecError where
  | eval (err : EvalError)
  | catalog (err : CatalogError)
  | type (err : TypeError)
  | badCursor
  | resourceLimit (what : String)
  | unsupported (feature : String)
  | panicked
  deriving DecidableEq, Repr

abbrev ExecResult := Except ExecError

/-- An evaluation failure is passed through. -/
def ofEval {α : Type} : Except EvalError α → ExecResult α
  | .ok a => .ok a
  | .error e => .error (.eval e)

@[simp] theorem ofEval_eq_ok {α : Type} {x : Except EvalError α} {a : α} :
    ofEval x = .ok a ↔ x = .ok a := by
  cases x <;> simp [ofEval]

theorem eq_eval_of_ofEval {α : Type} {x : Except EvalError α} {e : ExecError}
    (h : ofEval x = .error e) : ∃ err, e = .eval err := by
  cases x with
  | ok a => cases h
  | error err =>
    cases h
    exact ⟨err, rfl⟩

/-- A snapshot failure is passed through. -/
def ofCatalog {α : Type} : CatResult α → ExecResult α
  | .ok a => .ok a
  | .error e => .error (.catalog e)

@[simp] theorem ofCatalog_eq_ok {α : Type} {x : CatResult α} {a : α} :
    ofCatalog x = .ok a ↔ x = .ok a := by
  cases x <;> simp [ofCatalog]

/-! ## Access paths -/

/-- The shape of a base table's rows. -/
def tableShape (def_ : TableDef) (qualifier : String) : Shape :=
  ⟨def_.columns.map (fun col => ⟨some qualifier, col.name⟩)⟩

/-- A primary-key point lookup. -/
def pkLookup (snap : CatSnapshot) (table : String) (alias_ : Option String) (key : List Value) :
    ExecResult Relation := do
  let def_ ← ofCatalog (snap.table table)
  let row ← ofCatalog (snap.get table key)
  pure ⟨tableShape def_ (alias_.getD table), row.toList⟩

/-- The rows an index probe or a full scan yields. An empty prefix or an unknown index falls
back to the scan. -/
def scanRows (snap : CatSnapshot) (def_ : TableDef) (table : String) :
    Option (String × List Value) → CatResult (List Row)
  | some (index, keyPrefix) =>
    if !keyPrefix.isEmpty && def_.indexes.any (fun i => i.name == index)
    then snap.indexCandidates table index keyPrefix
    else snap.scan table
  | none => snap.scan table

/-- Whether a row agrees with the prefix on the index's columns. -/
def agrees (keyPrefix : List Value) (cols : List Nat) (row : Row) : Bool :=
  (keyPrefix.zip cols).all (fun (want, ci) => row[ci]?.any (fun got => got.eqv want))

/-- Keep the rows that agree exactly with the probed prefix. -/
def retainPrefix (def_ : TableDef) (rows : List Row) : Option (String × List Value) → List Row
  | some (index, keyPrefix) =>
    match def_.indexes.find? (fun i => i.name == index) with
    | some idx => rows.filter (agrees keyPrefix (idx.columns.filterMap def_.colIndex))
    | none => rows
  | none => rows

/-- A base-table scan, through an index when one is given. -/
def scan (snap : CatSnapshot) (table : String) (alias_ : Option String)
    (index : Option (String × List Value)) : ExecResult Relation := do
  let def_ ← ofCatalog (snap.table table)
  let rows ← ofCatalog (scanRows snap def_ table index)
  pure ⟨tableShape def_ (alias_.getD table), retainPrefix def_ rows index⟩

/-! ## Operators -/

section

variable (fx : Intrinsics)

/-- Keep the rows a predicate holds of. -/
def filterRows (pred : Expr) (shape : Shape) : List Row → ExecResult (List Row)
  | [] => .ok []
  | row :: rows => do
    let keep ← ofEval (evalPredicate fx pred row shape)
    let rest ← filterRows pred shape rows
    pure (if keep then row :: rest else rest)

/-- Whether a join predicate keeps a combined row; a cross join keeps every one. -/
def keeps (on : Option Expr) (shape : Shape) (row : Row) : ExecResult Bool :=
  match on with
  | none => .ok true
  | some pred => ofEval (evalPredicate fx pred row shape)

/-- The combinations of a left row with the right rows it joins. -/
def joinRow (on : Option Expr) (shape : Shape) (lrow : Row) : List Row → ExecResult (List Row)
  | [] => .ok []
  | rrow :: rrows => do
    let keep ← keeps fx on shape (lrow ++ rrow)
    let rest ← joinRow on shape lrow rrows
    pure (if keep then (lrow ++ rrow) :: rest else rest)

/-- A LEFT join emits an unmatched left row padded with nulls. -/
def padUnmatched (kind : JoinKind) (rightWidth : Nat) (lrow : Row) (joined : List Row) :
    List Row :=
  if kind = .left ∧ joined = [] then [lrow ++ List.replicate rightWidth .null] else joined

/-- The rows of a nested-loop join. -/
def joinRows (kind : JoinKind) (on : Option Expr) (shape : Shape) (rightWidth : Nat)
    (rrows : List Row) : List Row → ExecResult (List Row)
  | [] => .ok []
  | lrow :: lrows => do
    let joined ← joinRow fx on shape lrow rrows
    let rest ← joinRows kind on shape rightWidth rrows lrows
    pure (padUnmatched kind rightWidth lrow joined ++ rest)

/-- A nested-loop join. -/
def join (kind : JoinKind) (l r : Relation) (on : Option Expr) : ExecResult Relation := do
  let shape := l.shape.concat r.shape
  let rows ← joinRows fx kind on shape r.shape.cols.length r.rows l.rows
  pure ⟨shape, rows⟩

/-! ### Grouping -/

/-- Equality of rows follows the equality of values. -/
def rowEqv : Row → Row → Bool
  | [], [] => true
  | a :: as, b :: bs => a.eqv b && rowEqv as bs
  | _, _ => false

/-- A group: its key and its member rows, in input order. -/
structure Group where
  key : Row
  members : List Row
  deriving DecidableEq, Repr

/-- Add a row to the group of its key, a new one at the end when there is none. -/
def addToGroup (key row : Row) : List Group → List Group
  | [] => [⟨key, [row]⟩]
  | g :: gs =>
    if rowEqv g.key key then { g with members := g.members ++ [row] } :: gs
    else g :: addToGroup key row gs

/-- Bucket the rows by their group key, in order of first appearance. -/
def bucket (by_ : List Expr) (shape : Shape) :
    List Group → List Row → Except EvalError (List Group)
  | groups, [] => .ok groups
  | groups, row :: rows => do
    let key ← by_.mapM (eval fx row shape)
    bucket by_ shape (addToGroup key row groups) rows

/-- The float an aggregate sees in a value. -/
def asF64 : Value → F64
  | .i64 n => F64.ofInt64 n
  | .f64 f => f
  | _ => F64.nan

/-- The checked sum of the `i64` values. -/
def sumI64 : Int64 → List Value → Except EvalError Int64
  | acc, [] => .ok acc
  | acc, .i64 n :: vals =>
    match checked (acc.toInt + n.toInt) with
    | some acc' => sumI64 acc' vals
    | none => .error (.overflow "sum")
  | acc, _ :: vals => sumI64 acc vals

/-- Whether a value is a float. -/
def isF64 : Value → Bool
  | .f64 _ => true
  | _ => false

/-- SUM: null over no values, a float sum when a float is present, else checked integers. -/
def sum (vals : List Value) : Except EvalError Value :=
  if vals = [] then .ok .null
  else if vals.any isF64 then .ok (.f64 (vals.foldl (fun acc v => fx.addF64 acc (asF64 v)) ⟨0⟩))
  else do
    let acc ← sumI64 0 vals
    pure (.i64 acc)

/-- AVG: always a float, null over no values. -/
def avg (vals : List Value) : Value :=
  if vals = [] then .null
  else .f64 (fx.divF64 (fx.sumF64 (vals.map asF64)) (F64.ofNat vals.length))

/-- The first of the least values. -/
def minBy : List Value → Option Value
  | [] => none
  | v :: vs => some (vs.foldl (fun x y => if valueOrder x y = .gt then y else x) v)

/-- The last of the greatest values. -/
def maxBy : List Value → Option Value
  | [] => none
  | v :: vs => some (vs.foldl (fun x y => if valueOrder x y = .gt then x else y) v)

/-- The value of an aggregate function over the non-null argument values of a group. -/
def applyAgg (func : AggFunc) (vals : List Value) : Except EvalError Value :=
  match func with
  | .count => .ok (.i64 (Int64.ofNat vals.length))
  | .min => .ok ((minBy vals).getD .null)
  | .max => .ok ((maxBy vals).getD .null)
  | .sum => sum fx vals
  | .avg => .ok (avg fx vals)

/-- One aggregate over a group's member rows. -/
def computeAgg (expr : Expr) (members : List Row) (shape : Shape) : Except EvalError Value :=
  match expr with
  | .agg func arg => do
    let vals ← members.mapM (fun row => eval fx row shape arg)
    applyAgg fx func (vals.filter (fun v => !v.isNull))
  | _ => .ok .null

/-- The output row of a group: the columns of its first member, then the aggregates. -/
def groupRow (aggs : List (String × Expr)) (shape : Shape) (g : Group) :
    Except EvalError Row := do
  let outs ← aggs.mapM (fun a => computeAgg fx a.2 g.members shape)
  pure (g.members.headD (List.replicate shape.cols.length .null) ++ outs)

/-- A global aggregate yields one group even over no rows. -/
def globalGroup (by_ : List Expr) (groups : List Group) : List Group :=
  if by_.isEmpty && groups.isEmpty then [⟨[], []⟩] else groups

/-- Group rows and compute aggregates. -/
def aggregate (input : Relation) (by_ : List Expr) (aggs : List (String × Expr)) :
    ExecResult Relation := do
  let groups ← ofEval (bucket fx by_ input.shape [] input.rows)
  let rows ← ofEval ((globalGroup by_ groups).mapM (groupRow fx aggs input.shape))
  pure ⟨⟨input.shape.cols ++ aggs.map (fun a => ⟨none, a.1⟩)⟩, rows⟩

/-! ### Projection, duplicates, order -/

/-- The output label of an unaliased item. -/
def outputName (expr : Expr) (index : Nat) : String :=
  match expr with
  | .column _ column => column
  | _ => "col" ++ toString (index + 1)

/-- The output label of a projection item. -/
def outputNameOf (item : Projection) (index : Nat) : String :=
  match item with
  | .aliased name _ => name
  | .expr expr => outputName expr index

/-- The projected expression. -/
def itemExpr : Projection → Expr
  | .aliased _ expr => expr
  | .expr expr => expr

/-- The shape of a projection's output. -/
def projectShape (items : List Projection) : Shape :=
  ⟨items.zipIdx.map (fun (item, i) => ⟨none, outputNameOf item i⟩)⟩

/-- One projected row. -/
def projectRow (items : List Projection) (shape : Shape) (row : Row) : Except EvalError Row :=
  items.mapM (fun item => eval fx row shape (itemExpr item))

def project (input : Relation) (items : List Projection) : ExecResult Relation := do
  let rows ← ofEval (input.rows.mapM (projectRow fx items input.shape))
  pure ⟨projectShape items, rows⟩

/-- The rows that do not repeat an earlier one. -/
def dedup : List Row → List Row → List Row
  | seen, [] => seen
  | seen, row :: rows =>
    if seen.any (fun s => rowEqv s row) then dedup seen rows else dedup (seen ++ [row]) rows

def distinct (input : Relation) : Relation := ⟨input.shape, dedup [] input.rows⟩

/-- An order in a direction. -/
def inDir (dir : Dir) (ord : Ordering) : Ordering := if dir = .desc then ord.swap else ord

/-- The order of two sort-key tuples. -/
def keyOrder : List SortKey → Row → Row → Ordering
  | key :: keys, a :: as, b :: bs => (inDir key.dir (valueOrder a b)).then (keyOrder keys as bs)
  | _, _, _ => .eq

/-- The sort-key tuple of a row. -/
def sortKeys (keys : List SortKey) (shape : Shape) (row : Row) : Except EvalError Row :=
  keys.mapM (fun k => eval fx row shape k.expr)

/-- A stable sort of rows by the key tuples before them. The standard sort wants a total order:
where `keyOrder` is none on the tuples, which takes a key that mixes integers and floats, it leaves
the rows in an order of its own or panics. -/
def stableSort (keys : List SortKey) (keyed : List (Row × Row)) : ExecResult (List (Row × Row)) :=
  match fx.sortBy.run (fun a b => keyOrder keys a.1 b.1) keyed with
  | some sorted => .ok sorted
  | none => .error .panicked

variable {fx} in
theorem stableSort_eq_ok {keys : List SortKey} {keyed sorted : List (Row × Row)} :
    stableSort fx keys keyed = .ok sorted ↔
      fx.sortBy.run (fun a b => keyOrder keys a.1 b.1) keyed = some sorted := by
  rw [stableSort]
  split <;> simp_all

/-- Sort by the key tuples, evaluated once per row. -/
def sort (input : Relation) (keys : List SortKey) : ExecResult Relation := do
  let keyed ← ofEval (input.rows.mapM (fun row => do
    let ks ← sortKeys fx keys input.shape row
    pure (ks, row)))
  let sorted ← stableSort fx keys keyed
  pure ⟨input.shape, sorted.map Prod.snd⟩

/-- Skip, then truncate. -/
def applyLimit (rows : List Row) (limit : Option Nat) (offset : Nat) : List Row :=
  match limit with
  | some n => (rows.drop offset).take n
  | none => rows.drop offset

/-! ## The interpreter -/

/-- Execute a plan, materialising the input of every operator. -/
def execute (snap : CatSnapshot) : Plan → ExecResult Relation
  | .scan table alias_ => scan snap table alias_ none
  | .indexScan table alias_ index keyPrefix => scan snap table alias_ (some (index, keyPrefix))
  | .pkLookup table alias_ key => pkLookup snap table alias_ key
  | .filter input pred => do
    let rel ← execute snap input
    let rows ← filterRows fx pred rel.shape rel.rows
    pure ⟨rel.shape, rows⟩
  | .join kind left right on => do
    let l ← execute snap left
    let r ← execute snap right
    join fx kind l r on
  | .aggregate input by_ aggs => do
    let rel ← execute snap input
    aggregate fx rel by_ aggs
  | .project input items => do
    let rel ← execute snap input
    project fx rel items
  | .distinct input => do
    let rel ← execute snap input
    pure (distinct rel)
  | .sort input keys => do
    let rel ← execute snap input
    sort fx rel keys
  | .limit input limit offset => do
    let rel ← execute snap input
    pure ⟨rel.shape, applyLimit rel.rows limit offset⟩
  | .cursor _ _ => .error (.unsupported "cursor")

end

end Edb.Query
