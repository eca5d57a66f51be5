import Edb.BTree.Tree

/-!
# Range cursors

Copy-on-write trees keep no sibling pointers, so iteration walks a root-to-leaf path held on a
stack. The cursor reads the tree at a fixed root.

The stack is a list whose head is the deepest frame. Every loop of the source is bounded here by
a number no tree of the file can exceed: its pages for a descent or a step across leaves, and
`cap` entries for each page when collecting.
-/

namespace Edb.BTree

open Edb.Lib.OrdMap (partitionPoint)

inductive Direction where
  | forward
  | backward
  deriving DecidableEq, Repr

/-- One level of the descent path. For an internal node `idx` is the child descended through; for
a leaf it is the entry a forward step would yield (a backward step yields the one before). -/
structure CursorFrame where
  node : Node
  idx : Nat
  deriving DecidableEq, Repr

/-- A bounded iterator over `[lo, hi)` of a tree. -/
structure Cursor where
  dir : Direction
  lo : Option Bytes
  hi : Option Bytes
  path : List CursorFrame
  deriving DecidableEq, Repr

namespace Cursor

/-- The child to descend through for a lower bound. -/
def seekChild (bound : Option Bytes) (keys : List Bytes) : Nat :=
  match bound with
  | none => 0
  | some b => partitionPoint (fun k => decide (k ≤ b)) keys

/-- The first entry of a leaf at or after a lower bound. -/
def seekEntry (bound : Option Bytes) (keys : List Bytes) : Nat :=
  match bound with
  | none => 0
  | some b => partitionPoint (fun k => decide (k < b)) keys

/-- Extend the path to the first entry whose key is at least `bound`. -/
def descendLowerBound (bound : Option Bytes) :
    Nat → Nat → List CursorFrame → BTreeM (List CursorFrame)
  | 0, _, _ => throw .outOfFuel
  | fuel + 1, id, path => do
      let node ← readNode id
      match node with
      | .internal keys children =>
          let ci := seekChild bound keys
          descendLowerBound bound fuel (children.getD ci 0) ({ node := node, idx := ci } :: path)
      | .leaf keys _ => pure ({ node := node, idx := seekEntry bound keys } :: path)

/-- Extend the path to the leftmost leaf of `id`, positioned at its first entry. -/
def descendLeftmost : Nat → Nat → List CursorFrame → BTreeM (List CursorFrame)
  | 0, _, _ => throw .outOfFuel
  | fuel + 1, id, path => do
      let node ← readNode id
      match node with
      | .internal _ children =>
          descendLeftmost fuel (children.getD 0 0) ({ node := node, idx := 0 } :: path)
      | .leaf .. => pure ({ node := node, idx := 0 } :: path)

/-- Extend the path to the rightmost leaf of `id`, positioned just past its last entry. -/
def descendRightmost : Nat → Nat → List CursorFrame → BTreeM (List CursorFrame)
  | 0, _, _ => throw .outOfFuel
  | fuel + 1, id, path => do
      let node ← readNode id
      match node with
      | .internal _ children =>
          let last := children.length - 1
          descendRightmost fuel (children.getD last 0) ({ node := node, idx := last } :: path)
      | .leaf keys _ => pure ({ node := node, idx := keys.length } :: path)

/-- Open a cursor: both directions seek to the first entry at or after their start bound. -/
def openAt (root : Nat) (dir : Direction) (lo hi : Option Bytes) : BTreeM Cursor := do
  let path ← match dir with
    | .forward => do descendLowerBound lo (← fuel) root []
    | .backward => do
        match hi with
        | none => do descendRightmost (← fuel) root []
        | some h => do descendLowerBound (some h) (← fuel) root []
  pure { dir := dir, lo := lo, hi := hi, path := path }

/-- After dropping an exhausted leaf, move to the leftmost leaf of the next sibling subtree;
`none` if there is none. -/
def advanceToNextSubtree : List CursorFrame → BTreeM (Option (List CursorFrame))
  | [] => pure none
  | frame :: path =>
      match frame.node with
      | .internal _ children =>
          if frame.idx + 1 < children.length then do
            let path ← descendLeftmost (← fuel) (children.getD (frame.idx + 1) 0)
              ({ frame with idx := frame.idx + 1 } :: path)
            pure (some path)
          else advanceToNextSubtree path
      | .leaf .. => advanceToNextSubtree path

/-- After dropping a leaf at its start, move to the rightmost leaf of the previous sibling
subtree; `none` if there is none. -/
def retreatToPrevSubtree : List CursorFrame → BTreeM (Option (List CursorFrame))
  | [] => pure none
  | frame :: path =>
      match frame.node with
      | .internal _ children =>
          if frame.idx > 0 then do
            let path ← descendRightmost (← fuel) (children.getD (frame.idx - 1) 0)
              ({ frame with idx := frame.idx - 1 } :: path)
            pure (some path)
          else retreatToPrevSubtree path
      | .leaf .. => retreatToPrevSubtree path

/-- Drop the deepest frame and step to the next leaf's path; the empty path is exhausted. -/
def nextForward (hi : Option Bytes) :
    Nat → List CursorFrame → BTreeM (Option (Bytes × Bytes) × List CursorFrame)
  | _, [] => pure (none, [])
  | 0, _ :: _ => throw .outOfFuel
  | fuel + 1, frame :: path =>
      let crossLeaf : BTreeM (Option (Bytes × Bytes) × List CursorFrame) := do
        match ← advanceToNextSubtree path with
        | none => pure (none, [])
        | some path => nextForward hi fuel path
      match frame.node with
      | .leaf keys vals =>
          match keys[frame.idx]?, vals[frame.idx]? with
          | some k, some v =>
              if hi.any (fun h => decide (h ≤ k)) then pure (none, [])
              else pure (some (k, v), { frame with idx := frame.idx + 1 } :: path)
          | _, _ => crossLeaf
      | .internal .. => crossLeaf

def nextBackward (lo : Option Bytes) :
    Nat → List CursorFrame → BTreeM (Option (Bytes × Bytes) × List CursorFrame)
  | _, [] => pure (none, [])
  | 0, _ :: _ => throw .outOfFuel
  | fuel + 1, frame :: path =>
      let crossLeaf : BTreeM (Option (Bytes × Bytes) × List CursorFrame) := do
        match ← retreatToPrevSubtree path with
        | none => pure (none, [])
        | some path => nextBackward lo fuel path
      match frame.node with
      | .leaf keys vals =>
          if frame.idx > 0 then
            match keys[frame.idx - 1]?, vals[frame.idx - 1]? with
            | some k, some v =>
                if lo.any (fun l => decide (k < l)) then pure (none, [])
                else pure (some (k, v), { frame with idx := frame.idx - 1 } :: path)
            | _, _ => crossLeaf
          else crossLeaf
      | .internal .. => crossLeaf

/-- Yield the next pair, or `none` when the range is exhausted. -/
def nextEntry (c : Cursor) : BTreeM (Option (Bytes × Bytes) × Cursor) := do
  let (item, path) ← match c.dir with
    | .forward => do nextForward c.hi (← fuel) c.path
    | .backward => do nextBackward c.lo (← fuel) c.path
  pure (item, { c with path := path })

def collectLoop : Nat → Cursor → List (Bytes × Bytes) → BTreeM (List (Bytes × Bytes))
  | 0, _, _ => throw .outOfFuel
  | fuel + 1, c, out => do
      match ← c.nextEntry with
      | (none, _) => pure out
      | (some item, c) => collectLoop fuel c (out ++ [item])

/-- Collect the remaining pairs. -/
def collectAll (c : Cursor) : BTreeM (List (Bytes × Bytes)) := do
  collectLoop ((← fuel) * cap + 1) c []

end Cursor

/-- Collect `[lo, hi)` in ascending key order. -/
def range (root : Nat) (lo hi : Option Bytes) : BTreeM (List (Bytes × Bytes)) := do
  let c ← Cursor.openAt root .forward lo hi
  c.collectAll

end Edb.BTree
