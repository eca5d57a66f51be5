import Mathlib.Algebra.GroupWithZero.Nat
import Edb.Common.Basic
import Edb.Lib.OrdMap
import Edb.Pager.Page

/-!
# B+tree nodes

A node lives in the payload of one data page. The tree is copy-on-write: a modification reads a
node, builds a new one and writes it to a freshly allocated page.

A leaf holds parallel, key-sorted `keys`/`vals`; an internal node has one more child than
separators, and `keys[i]` bounds from below what is reachable through `children[i + 1]`. Page
payloads hold nodes here rather than their bytes; what the byte layout decides is the encoded
length (`encodedLen`) and which nodes a read accepts (`decode`).
-/

namespace Edb.BTree

open Edb.Lib.OrdMap (partitionPoint)

/-- Header bytes before a leaf's entries: kind, reserved, count. -/
def hdrLeaf : Nat := 4

/-- Header bytes before an internal node's separators: leaf header and leftmost child. -/
def hdrInternal : Nat := 12

/-- Usable payload bytes for a node. -/
def cap : Nat := pagePayloadSize

/-- A node is underfull (and must be rebalanced unless it is the root) below this many bytes. -/
def minFill : Nat := cap / 4

/-- The largest a single encoded entry or separator cell may be. -/
def maxCell : Nat := (cap - hdrInternal) / 2

example : cap = 4080 ∧ minFill = 1020 ∧ maxCell = 2034 := by decide

/-- A decoded B+tree node. -/
inductive Node where
  | leaf (keys vals : List Bytes)
  | internal (keys : List Bytes) (children : List Nat)
  deriving DecidableEq, Repr

/-- The specific way node bytes or tree structure were found to be invalid. -/
inductive Corruption where
  /-- The page's cell counts do not fit its bytes. -/
  | truncated (page : Nat)
  | unknownNodeKind (page : Nat)
  | keysNotSorted (page : Nat)
  | badChild (page child : Nat)
  | unevenLeafDepth
  | separatorMismatch (page : Nat)
  | underfull (page : Nat)
  | emptyInternal (page : Nat)
  deriving DecidableEq, Repr

/-! ## Searching sorted keys -/

/-- Rust's `binary_search` on a strictly sorted slice: `ok i` when `keys[i]` is the key, `error i`
with the position that keeps the slice sorted otherwise. -/
def binarySearch (keys : List Bytes) (key : Bytes) : Except Nat Nat :=
  let i := partitionPoint (fun k => decide (k < key)) keys
  if keys[i]? = some key then .ok i else .error i

/-- The index of the child covering `key` for an internal node with these separators. -/
def routeIndex (keys : List Bytes) (key : Bytes) : Nat :=
  partitionPoint (fun k => decide (k ≤ key)) keys

/-- The distance between two sizes. -/
def absDiff (a b : Nat) : Nat := if a < b then b - a else a - b

namespace Node

/-- An empty leaf (the shape of a freshly created tree's root). -/
def emptyLeaf : Node := .leaf [] []

/-- The separators or the entry keys of a node. -/
def keys : Node → List Bytes
  | .leaf keys _ => keys
  | .internal keys _ => keys

def keyCount : Node → Nat
  | .leaf keys _ => keys.length
  | .internal keys _ => keys.length

def headerLen : Node → Nat
  | .leaf .. => hdrLeaf
  | .internal .. => hdrInternal

def isInternal : Node → Bool
  | .leaf .. => false
  | .internal .. => true

/-- The encoded size of a leaf entry. -/
def leafCell (k v : Bytes) : Nat := 2 + k.length + 2 + v.length

/-- The encoded size of a separator. -/
def internalCell (k : Bytes) : Nat := 2 + k.length + 8

/-- The encoded sizes of the entries or separators, in order. -/
def cellLens : Node → List Nat
  | .leaf keys vals => List.zipWith leafCell keys vals
  | .internal keys _ => keys.map internalCell

/-- Total encoded byte length. -/
def encodedLen (n : Node) : Nat := n.headerLen + n.cellLens.sum

def isOverfull (n : Node) : Bool := n.encodedLen > cap

def isUnderfull (n : Node) : Bool := n.encodedLen < minFill

/-! ## Splitting and merging -/

/-- The running state of the search for a split index. -/
structure SplitState where
  best : Nat
  bestSkew : Nat
  left : Nat
  deriving DecidableEq, Repr

/-- The bytes of the cells right of a split after `m` cells of `left` bytes. For an internal node
the cell at `m` is promoted and belongs to neither side. -/
def rightLen (internal : Bool) (cells : List Nat) (left m : Nat) : Nat :=
  cells.sum - left - (if internal then cells.getD m 0 else 0)

/-- Weigh the split that leaves `m` cells on the left. -/
def splitStep (hdr : Nat) (internal : Bool) (cells : List Nat) (s : SplitState) (m : Nat) :
    SplitState :=
  let left := s.left + cells.getD (m - 1) 0
  let right := rightLen internal cells left m
  if hdr + left ≤ cap ∧ hdr + right ≤ cap then
    let skew := absDiff left right
    if skew < s.bestSkew then { best := m, bestSkew := skew, left := left }
    else { s with left := left }
  else { s with left := left }

/-- Choose the most balanced split of these cells that keeps both halves within a page. -/
def splitIndex (hdr : Nat) (internal : Bool) (cells : List Nat) (n : Nat) : Nat :=
  ((List.range' 1 (n - 1)).foldl (splitStep hdr internal cells)
    { best := 1, bestSkew := 2 ^ 64 - 1, left := 0 }).best

/-- The number of cells that stay on the left when the node is split. -/
def splitAt (n : Node) : Nat := splitIndex n.headerLen n.isInternal n.cellLens n.keyCount

/-- Split an overfull node into `(left, promoted key, right)`. A leaf copies the right half's
first key up; an internal node's middle key moves up and out of both halves. -/
def split (n : Node) : Node × Bytes × Node :=
  let m := n.splitAt
  match n with
  | .leaf keys vals =>
      (.leaf (keys.take m) (vals.take m), keys.getD m [], .leaf (keys.drop m) (vals.drop m))
  | .internal keys children =>
      (.internal (keys.take m) (children.take (m + 1)), keys.getD m [],
        .internal (keys.drop (m + 1)) (children.drop (m + 1)))

/-- Merge two adjacent siblings; between internal nodes the parent's separator descends. -/
def merge (left : Node) (separator : Bytes) (right : Node) : Node :=
  match left, right with
  | .leaf lk lv, .leaf rk rv => .leaf (lk ++ rk) (lv ++ rv)
  | .internal lk lc, .internal rk rc => .internal (lk ++ [separator] ++ rk) (lc ++ rc)
  | _, _ => left

/-! ## Reading a node back -/

/-- Keys are strictly ascending. -/
def ascending : List Bytes → Bool
  | [] => true
  | [_] => true
  | a :: b :: l => decide (a < b) && ascending (b :: l)

/-- What decoding the encoded bytes of `n` at `page` yields: malformed nodes are rejected. -/
def decode (n : Node) (page : Nat) : Except Corruption Node :=
  match n with
  | .leaf keys vals =>
      if keys.length ≠ vals.length then .error (.truncated page)
      else if ascending keys then .ok n
      else .error (.keysNotSorted page)
  | .internal keys children =>
      if children.length ≠ keys.length + 1 then .error (.truncated page)
      else
        match children.find? (fun c => c < firstDataPage) with
        | some c => .error (.badChild page c)
        | none => if ascending keys then .ok n else .error (.keysNotSorted page)

/-! ## Lookup within a node -/

/-- Look up `key` in a leaf. -/
def leafGet (n : Node) (key : Bytes) : Option Bytes :=
  match n with
  | .leaf keys vals =>
      match binarySearch keys key with
      | .ok i => vals[i]?
      | .error _ => none
  | .internal .. => none

/-- Route a search key to the child page that may contain it (`none` for a leaf). -/
def route (n : Node) (key : Bytes) : Option Nat :=
  match n with
  | .internal keys children => children[routeIndex keys key]?
  | .leaf .. => none

theorem ascending_iff (l : List Bytes) : ascending l = true ↔ l.Pairwise (· < ·) := by
  induction l with
  | nil => simp [ascending]
  | cons a l ih =>
      cases l with
      | nil => simp [ascending]
      | cons b l =>
          rw [ascending, Bool.and_eq_true, decide_eq_true_iff, ih, List.pairwise_cons (a := a)]
          constructor
          · rintro ⟨hab, hp⟩
            refine ⟨fun c hc => ?_, hp⟩
            rcases List.mem_cons.mp hc with rfl | hc
            · exact hab
            · exact lt_trans hab ((List.pairwise_cons.mp hp).1 c hc)
          · exact fun ⟨h, hp⟩ => ⟨h b (List.mem_cons_self ..), hp⟩

/-- The nodes that decode to themselves. -/
def Readable : Node → Prop
  | .leaf keys vals => keys.length = vals.length ∧ keys.Pairwise (· < ·)
  | .internal keys children =>
      children.length = keys.length + 1 ∧ (∀ c ∈ children, firstDataPage ≤ c) ∧
        keys.Pairwise (· < ·)

/-- A readable node is decoded as it is. -/
theorem decode_of_readable {n : Node} (h : n.Readable) (page : Nat) : n.decode page = .ok n := by
  cases n with
  | leaf keys vals =>
      obtain ⟨hlen, hs⟩ := h
      simp [decode, hlen, (ascending_iff keys).mpr hs]
  | internal keys children =>
      obtain ⟨hlen, hc, hs⟩ := h
      have hnone : children.find? (fun c => decide (c < firstDataPage)) = none := by
        rw [List.find?_eq_none]
        intro c hmem
        have := hc c hmem
        simp only [decide_eq_true_iff]
        omega
      simp [decode, hlen, hnone, (ascending_iff keys).mpr hs]

/-- What is decoded is readable. -/
theorem readable_of_decode {n n' : Node} {page : Nat} (h : n.decode page = .ok n') :
    n'.Readable := by
  cases n with
  | leaf keys vals =>
      unfold decode at h
      simp only at h
      split at h
      · cases h
      next hlen =>
        split at h
        next hs =>
          cases h
          exact ⟨not_not.mp hlen, (ascending_iff keys).mp hs⟩
        next => cases h
  | internal keys children =>
      unfold decode at h
      simp only at h
      split at h
      · cases h
      next hlen =>
        split at h
        next => cases h
        next hnone =>
          split at h
          next hs =>
            cases h
            refine ⟨not_not.mp hlen, fun c hc => ?_, (ascending_iff keys).mp hs⟩
            have := List.find?_eq_none.mp hnone c hc
            simpa using this
          next => cases h

end Node

instance : Payload Node where
  len := Node.encodedLen

end Edb.BTree
