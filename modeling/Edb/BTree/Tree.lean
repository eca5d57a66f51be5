import Edb.BTree.Node
import Edb.Pager.Pager

/-!
# The copy-on-write B+tree

Trees over pages. A mutation returns the root to read from and the pages it superseded; the
tree itself never frees a page, and every node it writes goes to a page allocated for it.

The source descends without a bound. Here each descent carries a bound, `Pager.metadata.pageCount`,
which no path of a tree can exceed since its pages are distinct pages of the file; running into
it is the error `outOfFuel`.
-/

namespace Edb.BTree

inductive BTreeError where
  | pager (e : PagerError)
  | corruption (c : Corruption)
  | entryTooLarge (entry max : Nat)
  /-- The model's bound on a descent was reached. -/
  | outOfFuel
  deriving DecidableEq, Repr

def BTreeError.category : BTreeError → ErrorCategory
  | .pager e => e.category
  | .corruption _ => .corruption
  | .entryTooLarge .. => .resourceLimit
  | .outOfFuel => .corruption

abbrev BTreeM (β : Type) := EStateM BTreeError (Pager Node) β

/-- A pager operation as a step of a tree operation. -/
def liftPager {β : Type} (x : PagerM Node β) : BTreeM β := fun p =>
  match x p with
  | .ok b p' => .ok b p'
  | .error e p' => .error (.pager e) p'

/-- The result of a mutation: the new root, and the pages no longer reachable from it. -/
structure Edit where
  newRoot : Nat
  freed : List Nat
  deriving DecidableEq, Repr

/-- A structural summary of a tree. -/
structure TreeStats where
  height : Nat
  entries : Nat
  nodes : Nat
  deriving DecidableEq, Repr

/-- Outcome of a recursive insert into a subtree: the rebuilt subtree, or the two halves it was
split into. Over pages a subtree is the id of its root (`Ins Nat`). -/
inductive Ins (α : Type) where
  | updated (id : α)
  | split (left : α) (sep : Bytes) (right : α)
  deriving DecidableEq, Repr

/-- Outcome of a recursive delete from a subtree. -/
inductive Del (α : Type) where
  | unchanged
  | done (id : α) (underfull : Bool)
  deriving DecidableEq, Repr

/-- Check whether an entry can ever fit in a node, both as a leaf cell now and as a separator
(its key alone) later. -/
def checkEntry (key value : Bytes) : Except BTreeError Unit :=
  let need := max (4 + key.length + value.length) (10 + key.length)
  if need > maxCell then .error (.entryTooLarge need maxCell) else .ok ()

/-- The bound on the depth of a descent. -/
def fuel : BTreeM Nat := do
  let p ← get
  pure p.metadata.pageCount

def readNode (id : Nat) : BTreeM Node := do
  let frame ← liftPager (Pager.readPage id)
  match frame.body with
  | .data n =>
      match n.decode id with
      | .ok n => pure n
      | .error c => throw (.corruption c)
  | _ => throw (.corruption (.unknownNodeKind id))

def writeNode (node : Node) : BTreeM Nat := do
  let id ← liftPager Pager.alloc
  liftPager (Pager.writePage id node)
  pure id

/-- Create an empty tree, returning its root page id. -/
def create : BTreeM Nat := writeNode Node.emptyLeaf

/-! ## Lookup -/

def lookupLoop (key : Bytes) : Nat → Nat → BTreeM (Option Bytes)
  | 0, _ => throw .outOfFuel
  | fuel + 1, id => do
      let node ← readNode id
      match node.route key with
      | some child => lookupLoop key fuel child
      | none => pure (node.leafGet key)

/-- Look up `key`, returning its value if present. -/
def lookup (root : Nat) (key : Bytes) : BTreeM (Option Bytes) := do
  lookupLoop key (← fuel) root

/-! ## Insertion -/

/-- Write a (possibly overfull) node, splitting it into the parent-facing result. -/
def writeBalanced (node : Node) : BTreeM (Ins Nat) := do
  if node.isOverfull then
    let (left, sep, right) := node.split
    let lid ← writeNode left
    let rid ← writeNode right
    pure (.split lid sep rid)
  else
    let id ← writeNode node
    pure (.updated id)

/-- A leaf with `key` bound to `value`. -/
def leafInsert (keys vals : List Bytes) (key value : Bytes) : Node :=
  match binarySearch keys key with
  | .ok i => .leaf keys (vals.set i value)
  | .error i => .leaf (keys.insertIdx i key) (vals.insertIdx i value)

/-- An internal node after the child at `ci` was rebuilt. -/
def installChild (keys : List Bytes) (children : List Nat) (ci : Nat) : Ins Nat → Node
  | .updated c => .internal keys (children.set ci c)
  | .split left sep right =>
      .internal (keys.insertIdx ci sep) ((children.set ci left).insertIdx (ci + 1) right)

def insertRec (key value : Bytes) : Nat → Nat → List Nat → BTreeM (Ins Nat × List Nat)
  | 0, _, _ => throw .outOfFuel
  | fuel + 1, nodeId, freed => do
      let node ← readNode nodeId
      let freed := freed ++ [nodeId]
      match node with
      | .leaf keys vals => do
          let ins ← writeBalanced (leafInsert keys vals key value)
          pure (ins, freed)
      | .internal keys children => do
          let ci := routeIndex keys key
          let (ins, freed) ← insertRec key value fuel (children.getD ci 0) freed
          let ins ← writeBalanced (installChild keys children ci ins)
          pure (ins, freed)

/-- Insert or replace `key`, returning the new root and freed pages. -/
def insert (root : Nat) (key value : Bytes) : BTreeM Edit := do
  match checkEntry key value with
  | .error e => throw e
  | .ok () =>
      let (ins, freed) ← insertRec key value (← fuel) root []
      match ins with
      | .updated id => pure { newRoot := id, freed := freed }
      | .split left sep right =>
          -- the root split: grow the tree by one level
          let id ← writeNode (.internal [sep] [left, right])
          pure { newRoot := id, freed := freed }

/-! ## Deletion -/

/-- Fix an underfull child at `ci` by merging it with an adjacent sibling (the left one if there
is one), splitting the merge back into two nodes if it overflows. -/
def rebalance (keys : List Bytes) (children : List Nat) (ci : Nat) (freed : List Nat) :
    BTreeM (List Bytes × List Nat × List Nat) := do
  let l := if ci > 0 then ci - 1 else ci
  let r := l + 1
  let left ← readNode (children.getD l 0)
  let right ← readNode (children.getD r 0)
  let merged := Node.merge left (keys.getD l []) right
  let freed := freed ++ [children.getD l 0, children.getD r 0]
  if merged.isOverfull then
    let (l2, newSep, r2) := merged.split
    let lid ← writeNode l2
    let rid ← writeNode r2
    pure (keys.set l newSep, (children.set l lid).set r rid, freed)
  else
    let id ← writeNode merged
    pure (keys.eraseIdx l, (children.set l id).eraseIdx r, freed)

/-- Rebalance the child at `ci` if the deletion below it left it underfull. -/
def repair (keys : List Bytes) (children : List Nat) (ci : Nat) (underfull : Bool)
    (freed : List Nat) : BTreeM (List Bytes × List Nat × List Nat) :=
  if underfull then rebalance keys children ci freed else pure (keys, children, freed)

def deleteRec (key : Bytes) : Nat → Nat → List Nat → BTreeM (Del Nat × List Nat)
  | 0, _, _ => throw .outOfFuel
  | fuel + 1, nodeId, freed => do
      let node ← readNode nodeId
      match node with
      | .leaf keys vals =>
          match binarySearch keys key with
          | .error _ => pure (.unchanged, freed)
          | .ok i => do
              let freed := freed ++ [nodeId]
              let leaf := Node.leaf (keys.eraseIdx i) (vals.eraseIdx i)
              let id ← writeNode leaf
              pure (.done id leaf.isUnderfull, freed)
      | .internal keys children => do
          let ci := routeIndex keys key
          let (del, freed) ← deleteRec key fuel (children.getD ci 0) freed
          match del with
          | .unchanged => pure (.unchanged, freed)
          | .done id childUnderfull => do
              let freed := freed ++ [nodeId]
              let (keys, children, freed) ←
                repair keys (children.set ci id) ci childUnderfull freed
              let internal := Node.internal keys children
              let id ← writeNode internal
              pure (.done id internal.isUnderfull, freed)

/-- Delete `key` if present, returning the new root and freed pages. Deleting an absent key
leaves the root unchanged with no freed pages. -/
def delete (root : Nat) (key : Bytes) : BTreeM Edit := do
  let (del, freed) ← deleteRec key (← fuel) root []
  match del with
  | .unchanged => pure { newRoot := root, freed := [] }
  | .done id _ =>
      -- an internal root with a single child shrinks the tree by a level
      match ← readNode id with
      | .internal _ [child] => pure { newRoot := child, freed := freed ++ [id] }
      | _ => pure { newRoot := id, freed := freed }

/-! ## Whole-tree walks -/

/-- Every page id reachable from `root`, by a depth-first walk over a stack. -/
def pagesLoop : Nat → List Nat → List Nat → BTreeM (List Nat)
  | _, [], out => pure out
  | 0, _ :: _, _ => throw .outOfFuel
  | fuel + 1, id :: stack, out => do
      match ← readNode id with
      | .internal _ children => pagesLoop fuel (children.reverse ++ stack) (out ++ [id])
      | .leaf .. => pagesLoop fuel stack (out ++ [id])

def pages (root : Nat) : BTreeM (List Nat) := do
  pagesLoop (← fuel) [root] []

/-- `k` lies inside the bounds inherited from the separators. -/
def inBounds (lower upper : Option Bytes) (k : Bytes) : Bool :=
  (match lower with | none => true | some lo => decide (lo ≤ k)) &&
  (match upper with | none => true | some hi => decide (k < hi))

/-- The children of an internal node with the bounds its separators prescribe. -/
def childBounds (lower upper : Option Bytes) (keys : List Bytes) (children : List Nat) :
    List (Nat × Option Bytes × Option Bytes) :=
  children.zipIdx.map fun (child, i) =>
    (child, if i = 0 then lower else keys[i - 1]?, if i = keys.length then upper else keys[i]?)

/-- Add a child's depth, entries and nodes to those of its earlier siblings: leaves must be at the
same depth. -/
def joinChild (acc : Option Nat × Nat × Nat) (r : Nat × Nat × Nat) :
    BTreeM (Option Nat × Nat × Nat) :=
  match acc.1 with
  | none => pure (some r.1, acc.2.1 + r.2.1, acc.2.2 + r.2.2)
  | some prev =>
      if prev ≠ r.1 then throw (.corruption .unevenLeafDepth)
      else pure (some prev, acc.2.1 + r.2.1, acc.2.2 + r.2.2)

/-- Depth, number of entries and number of nodes of a structurally valid subtree. -/
def validateRec : Nat → Nat → Option Bytes → Option Bytes → Bool → BTreeM (Nat × Nat × Nat)
  | 0, _, _, _, _ => throw .outOfFuel
  | fuel + 1, id, lower, upper, isRoot => do
      match ← readNode id with
      | .leaf keys vals =>
          if !isRoot && keys.isEmpty then throw (.corruption (.underfull id))
          else if keys.length ≠ vals.length then throw (.corruption (.keysNotSorted id))
          else if !keys.all (inBounds lower upper) then
            throw (.corruption (.separatorMismatch id))
          else pure (1, keys.length, 1)
      | .internal keys children =>
          if children.length < 2 ∨ children.length ≠ keys.length + 1 then
            throw (.corruption (.emptyInternal id))
          else if !keys.all (inBounds lower upper) then
            throw (.corruption (.separatorMismatch id))
          else do
            let (depth, entries, nodes) ← (childBounds lower upper keys children).foldlM
              (fun acc b => do joinChild acc (← validateRec fuel b.1 b.2.1 b.2.2 false))
              (none, 0, 0)
            pure (depth.getD 0 + 1, entries, nodes + 1)

/-- Walk the whole tree and check its structural invariants. -/
def validate (root : Nat) : BTreeM TreeStats := do
  let (height, entries, nodes) ← validateRec (← fuel) root none none true
  pure { height := height, entries := entries, nodes := nodes }

end Edb.BTree
