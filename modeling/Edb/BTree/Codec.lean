import Mathlib.Algebra.Order.BigOperators.Group.List
import Mathlib.Algebra.Order.Group.Nat
import Edb.BTree.Node
import Edb.Common.Basic
import Edb.Lib.Scanner

/-!
# The bytes of a node

The payload layout (little-endian):

    leaf:      0  0  count u16             then count × (klen u16, key, vlen u16, val)
    internal:  1  0  count u16  child u64  then count × (klen u16, key, child u64)

On the bytes of a node, followed by anything, `decode` does what `Node.decode` says of the node
(`decode_encode`); and whatever it accepts is well formed and starts with the bytes of the node it
returns, up to the reserved byte, which it does not look at (`decode_exact`).
-/

namespace Edb.BTree.Codec

open Edb.Lib

def kindLeaf : UInt8 := 0
def kindInternal : UInt8 := 1

/-! ## Encoding -/

/-- A length-prefixed byte string. -/
def sized (bytes : Bytes) : Bytes := toLeBytes 2 bytes.length ++ bytes

def leafCell (cell : Bytes × Bytes) : Bytes := sized cell.1 ++ sized cell.2

def innerCell (cell : Bytes × Nat) : Bytes := sized cell.1 ++ toLeBytes 8 cell.2

/-- Encode a node into its on-page payload bytes. -/
def encode : Node → Bytes
  | .leaf keys vals =>
      [kindLeaf, 0] ++ toLeBytes 2 keys.length ++ (keys.zip vals).flatMap leafCell
  | .internal keys children =>
      [kindInternal, 0] ++ toLeBytes 2 keys.length ++ toLeBytes 8 (children.headD 0) ++
        (keys.zip children.tail).flatMap innerCell

/-! ## Decoding -/

/-- A bounds-checked reader over a page payload. -/
abbrev Reader := Scanner Corruption UInt8

section Readers

variable (page : Nat)

def take (n : Nat) : Reader Bytes := fun buf =>
  if n ≤ buf.length then .ok (buf.take n, buf.drop n) else .error (.truncated page)

/-- A little-endian word of `n` bytes (`from_le_bytes`). -/
def word (n : Nat) : Reader Nat := do
  let bytes ← take page n
  pure (fromLeBytes bytes)

def u8 : Reader UInt8 := do
  let bytes ← take page 1
  pure (bytes.headD 0)

def u16 : Reader Nat := word page 2

def u64 : Reader Nat := word page 8

def bytesU16 : Reader Bytes := do
  let len ← u16 page
  take page len

/-- Validate that an encoded child page id is in the legal range. -/
def childId (raw : Nat) : Reader Nat := fun buf =>
  if raw < firstDataPage then .error (.badChild page raw) else .ok (raw, buf)

/-- Verify keys are strictly ascending. -/
def checkAscending (keys : List Bytes) : Reader Unit := fun buf =>
  if Node.ascending keys then .ok ((), buf) else .error (.keysNotSorted page)

def readLeafCell : Reader (Bytes × Bytes) := do
  let key ← bytesU16 page
  let val ← bytesU16 page
  pure (key, val)

def readChild : Reader Nat := do
  let raw ← u64 page
  childId page raw

def readInnerCell : Reader (Bytes × Nat) := do
  let key ← bytesU16 page
  let child ← readChild page
  pure (key, child)

def readNode : Reader Node := do
  let kind ← u8 page
  let _reserved ← u8 page
  let count ← u16 page
  if kind = kindLeaf then do
    let cells ← many (readLeafCell page) count
    checkAscending page (cells.map Prod.fst)
    pure (.leaf (cells.map Prod.fst) (cells.map Prod.snd))
  else if kind = kindInternal then do
    let first ← readChild page
    let cells ← many (readInnerCell page) count
    checkAscending page (cells.map Prod.fst)
    pure (.internal (cells.map Prod.fst) (first :: cells.map Prod.snd))
  else throw (.unknownNodeKind page)

end Readers

/-- Decode a node from a page payload. -/
def decode (payload : Bytes) (page : Nat) : Except Corruption Node :=
  (readNode page payload).map Prod.fst

/-! ## What is written comes back -/

section Forward

variable {page : Nat}

theorem take_scans (head rest : Bytes) :
    Scans (take page head.length) (head ++ rest) head rest := by
  unfold Scans take
  rw [if_pos (by simp), List.take_left, List.drop_left]

/-- A number in little-endian order is read back. -/
theorem word_scans {n w : Nat} (h : w < 256 ^ n) (rest : Bytes) :
    Scans (word page n) (toLeBytes n w ++ rest) w rest := by
  have htake : Scans (take page (toLeBytes n w).length) (toLeBytes n w ++ rest) (toLeBytes n w)
      rest := take_scans (toLeBytes n w) rest
  rw [length_toLeBytes] at htake
  refine htake.bind ?_
  rw [fromLeBytes_toLeBytes h]
  exact Scans.ret w rest

theorem u8_scans (b : UInt8) (rest : Bytes) : Scans (u8 page) (b :: rest) b rest :=
  (take_scans [b] rest).bind (Scans.ret b rest)

theorem bytesU16_scans {bytes : Bytes} (h : bytes.length < 2 ^ 16) (rest : Bytes) :
    Scans (bytesU16 page) (sized bytes ++ rest) bytes rest := by
  rw [sized, List.append_assoc]
  exact (word_scans h _).bind (take_scans bytes rest)

theorem readChild_scans {child : Nat} (hlo : firstDataPage ≤ child) (hhi : child < 2 ^ 64)
    (rest : Bytes) : Scans (readChild page) (toLeBytes 8 child ++ rest) child rest :=
  (word_scans hhi rest).bind (if_neg (Nat.not_lt.2 hlo))

theorem checkAscending_scans {keys : List Bytes} (h : keys.Pairwise (· < ·)) (rest : Bytes) :
    Scans (checkAscending page keys) rest () rest :=
  if_pos ((Node.ascending_iff keys).2 h)

/-- The cells of a node come back one after the other. -/
theorem cells_scan {α : Type} {read : Reader α} {write : α → Bytes} {cells : List α}
    (h : ∀ cell ∈ cells, ∀ rest, Scans read (write cell ++ rest) cell rest) (rest : Bytes) :
    Scans (many read cells.length) (cells.flatMap write ++ rest) cells rest := by
  induction cells with
  | nil => exact Scans.ret [] rest
  | cons cell cells ih =>
    rw [List.flatMap_cons, List.append_assoc]
    refine (h cell (List.mem_cons_self ..) _).bind ?_
    refine (ih fun c hc => h c (List.mem_cons_of_mem _ hc)).bind ?_
    exact Scans.ret (cell :: cells) rest

end Forward

/-- The cells of a leaf. -/
theorem cellLens_leaf (keys vals : List Bytes) : (Node.leaf keys vals).cellLens =
    (keys.zip vals).map fun cell => Node.leafCell cell.1 cell.2 := by
  rw [Node.cellLens, List.zip, List.map_zipWith]

/-- A node whose encoding fits a page has few cells, and short ones. -/
theorem cells_short {n : Node} (h : n.encodedLen ≤ cap) :
    n.cellLens.length < 2 ^ 16 ∧ ∀ len ∈ n.cellLens, len < 2 ^ 16 := by
  have hcap : cap = 4080 := rfl
  have hsum : n.cellLens.sum ≤ cap := Nat.le_trans (Nat.le_add_left ..) h
  constructor
  · have hpos : ∀ len ∈ n.cellLens, 1 ≤ len := by
      intro len hlen
      cases n with
      | leaf keys vals =>
        rw [cellLens_leaf] at hlen
        obtain ⟨cell, -, rfl⟩ := List.mem_map.1 hlen
        unfold Node.leafCell
        omega
      | internal keys children =>
        obtain ⟨key, -, rfl⟩ := List.mem_map.1 hlen
        unfold Node.internalCell
        omega
    have := List.length_le_sum_of_one_le _ hpos
    omega
  · intro len hlen
    have := List.single_le_sum (fun _ _ => Nat.zero_le _) len hlen
    omega

/-- Child ids are words of 64 bits. -/
def Ids64 : Node → Prop
  | .leaf .. => True
  | .internal _ children => ∀ c ∈ children, c < 2 ^ 64

/-- The encoding has the length the layers above reckon with. -/
theorem length_encode {n : Node} (h : n.Readable) : (encode n).length = n.encodedLen := by
  cases n with
  | leaf keys vals =>
    have hcell : ∀ cell : Bytes × Bytes, (leafCell cell).length = Node.leafCell cell.1 cell.2 := by
      intro cell
      simp only [leafCell, sized, List.length_append, length_toLeBytes, Node.leafCell]
      omega
    simp only [encode, List.length_append, List.length_cons, List.length_nil, length_toLeBytes,
      List.length_flatMap, hcell, Node.encodedLen, cellLens_leaf]
    rfl
  | internal keys children =>
    have hcell : ∀ cell : Bytes × Nat, (innerCell cell).length = Node.internalCell cell.1 := by
      intro cell
      simp only [innerCell, sized, List.length_append, length_toLeBytes, Node.internalCell]
    have hcells : (keys.zip children.tail).map (fun cell => Node.internalCell cell.1) =
        keys.map Node.internalCell := by
      have hfst : (keys.zip children.tail).map Prod.fst = keys :=
        List.map_fst_zip (by rw [List.length_tail, h.1, Nat.add_sub_cancel])
      conv_rhs => rw [← hfst, List.map_map]
      rfl
    simp only [encode, List.length_append, List.length_cons, List.length_nil, length_toLeBytes,
      List.length_flatMap, hcell, hcells, Node.encodedLen, Node.cellLens]
    rfl

/-- **Round trip**, whatever follows the encoding. -/
theorem decode_encode {n : Node} (h : n.Readable) (hids : Ids64 n) (hlen : n.encodedLen ≤ cap)
    (padding : Bytes) (page : Nat) : decode (encode n ++ padding) page = .ok n := by
  -- a node that fits its page has lengths that fit the two bytes they are written in
  obtain ⟨hcount, hshort⟩ := cells_short hlen
  suffices hscan : Scans (readNode page) (encode n ++ padding) n padding by
    rw [decode, hscan]
    rfl
  cases n with
  | leaf keys vals =>
    obtain ⟨hpair, hsorted⟩ := h
    rw [cellLens_leaf] at hcount hshort
    have hfst : (keys.zip vals).map Prod.fst = keys := List.map_fst_zip (Nat.le_of_eq hpair)
    have hsnd : (keys.zip vals).map Prod.snd = vals := List.map_snd_zip (Nat.le_of_eq hpair.symm)
    have hkeys : keys.length = (keys.zip vals).length := by
      rw [List.length_zip, hpair, Nat.min_self]
    rw [List.length_map, ← hkeys] at hcount
    -- the kind, a reserved byte and the count, then the cells one after another
    simp only [encode, List.append_assoc, List.cons_append, List.nil_append]
    refine (u8_scans kindLeaf _).bind ((u8_scans 0 _).bind ((word_scans hcount _).bind ?_))
    rw [if_pos rfl, hkeys]
    refine (cells_scan (fun cell hcell rest => ?_) padding).bind ?_
    · have hcell := hshort _ (List.mem_map_of_mem hcell)
      unfold Node.leafCell at hcell
      rw [leafCell, List.append_assoc]
      refine (bytesU16_scans (by omega) _).bind ((bytesU16_scans (by omega) rest).bind ?_)
      exact Scans.ret cell rest
    · rw [hfst, hsnd]
      exact (checkAscending_scans hsorted padding).bind (Scans.ret _ padding)
  | internal keys children =>
    obtain ⟨hpair, hlo, hsorted⟩ := h
    -- an internal page stores its first child apart, and then a child with every key
    obtain ⟨first, children, rfl⟩ : ∃ c cs, children = c :: cs :=
      List.exists_cons_of_length_pos (by omega)
    rw [List.length_cons, Nat.succ_inj] at hpair
    have hfst : (keys.zip children).map Prod.fst = keys :=
      List.map_fst_zip (Nat.le_of_eq hpair.symm)
    have hsnd : (keys.zip children).map Prod.snd = children := List.map_snd_zip (Nat.le_of_eq hpair)
    have hkeys : keys.length = (keys.zip children).length := by
      rw [List.length_zip, hpair, Nat.min_self]
    rw [Node.cellLens, List.length_map] at hcount
    simp only [encode, List.append_assoc, List.cons_append, List.nil_append, List.headD_cons,
      List.tail_cons]
    refine (u8_scans kindInternal _).bind ((u8_scans 0 _).bind ((word_scans hcount _).bind ?_))
    rw [if_neg (by decide), if_pos rfl, hkeys]
    refine (readChild_scans (hlo first (List.mem_cons_self ..)) (hids first (List.mem_cons_self ..))
      _).bind ((cells_scan (fun cell hcell rest => ?_) padding).bind ?_)
    · have hkey : cell.1 ∈ keys := hfst ▸ List.mem_map_of_mem hcell
      have hchild : cell.2 ∈ first :: children :=
        List.mem_cons_of_mem _ (hsnd ▸ List.mem_map_of_mem hcell)
      have hcell := hshort _ (List.mem_map_of_mem hkey)
      unfold Node.internalCell at hcell
      rw [innerCell, List.append_assoc]
      refine (bytesU16_scans (by omega) _).bind
        ((readChild_scans (hlo _ hchild) (hids _ hchild) rest).bind ?_)
      exact Scans.ret cell rest
    · rw [hfst, hsnd]
      exact (checkAscending_scans hsorted padding).bind (Scans.ret _ padding)

/-! ## What is accepted is well formed -/

section Exactness

variable {page : Nat}

/-- Taking `n` bytes takes those and no other. -/
theorem take_exact {n : Nat} {input bytes rest : Bytes} (h : Scans (take page n) input bytes rest) :
    input = bytes ++ rest ∧ bytes.length = n := by
  unfold Scans take at h
  split at h
  next hle =>
    cases h
    exact ⟨(List.take_append_drop n input).symm, List.length_take_of_le hle⟩
  next => cases h

/-- A number is read from the bytes that write it. -/
theorem word_exact (n : Nat) : Exact (word page n) (toLeBytes n) (· < 256 ^ n) := by
  intro input w rest h
  obtain ⟨bytes, mid, htake, h⟩ := Scans.of_bind h
  obtain ⟨rfl, rfl⟩ := h.of_ret
  obtain ⟨rfl, rfl⟩ := take_exact htake
  rw [toLeBytes_fromLeBytes]
  exact ⟨rfl, fromLeBytes_lt bytes⟩

theorem u8_exact : Exact (u8 page) (fun b => [b]) fun _ => True := by
  intro input b rest h
  obtain ⟨bytes, mid, htake, h⟩ := Scans.of_bind h
  obtain ⟨rfl, rfl⟩ := h.of_ret
  obtain ⟨rfl, hlen⟩ := take_exact htake
  obtain ⟨b, rfl⟩ := List.length_eq_one_iff.1 hlen
  exact ⟨rfl, trivial⟩

/-- A sized string of bytes is read from what writes it. -/
theorem bytesU16_exact : Exact (bytesU16 page) sized fun _ => True := by
  intro input bytes rest h
  obtain ⟨len, mid, hlen, htake⟩ := Scans.of_bind h
  obtain ⟨rfl, -⟩ := word_exact 2 hlen
  obtain ⟨rfl, rfl⟩ := take_exact htake
  exact ⟨(List.append_assoc ..).symm, trivial⟩

/-- A child pointer is read from what writes it, and is a data page. -/
theorem readChild_exact :
    Exact (readChild page) (toLeBytes 8) fun c => firstDataPage ≤ c ∧ c < 2 ^ 64 := by
  intro input child rest h
  obtain ⟨raw, mid, hword, hchild⟩ := Scans.of_bind h
  obtain ⟨rfl, hlt⟩ := word_exact 8 hword
  unfold Scans childId at hchild
  split at hchild
  next => cases hchild
  next hlo =>
    cases hchild
    exact ⟨rfl, Nat.not_lt.1 hlo, hlt⟩

/-- A cell of a leaf is read from what writes it. -/
theorem readLeafCell_exact : Exact (readLeafCell page) leafCell fun _ => True := by
  intro input cell rest h
  obtain ⟨key, mid, hkey, h⟩ := Scans.of_bind h
  obtain ⟨val, mid', hval, h⟩ := Scans.of_bind h
  obtain ⟨rfl, rfl⟩ := h.of_ret
  obtain ⟨rfl, -⟩ := bytesU16_exact hkey
  obtain ⟨rfl, -⟩ := bytesU16_exact hval
  exact ⟨(List.append_assoc ..).symm, trivial⟩

/-- A cell of an internal node is read from what writes it, and its child is a data page. -/
theorem readInnerCell_exact : Exact (readInnerCell page) innerCell
    fun cell => firstDataPage ≤ cell.2 ∧ cell.2 < 2 ^ 64 := by
  intro input cell rest h
  obtain ⟨key, mid, hkey, h⟩ := Scans.of_bind h
  obtain ⟨child, mid', hchild, h⟩ := Scans.of_bind h
  obtain ⟨rfl, rfl⟩ := h.of_ret
  obtain ⟨rfl, -⟩ := bytesU16_exact hkey
  obtain ⟨rfl, hrange⟩ := readChild_exact hchild
  exact ⟨(List.append_assoc ..).symm, hrange⟩

/-- The check of the keys accepts ascending ones and reads nothing. -/
theorem checkAscending_exact {keys : List Bytes} {input rest : Bytes} {u : Unit}
    (h : Scans (checkAscending page keys) input u rest) :
    keys.Pairwise (· < ·) ∧ rest = input := by
  unfold Scans checkAscending at h
  split at h
  next hsorted =>
    cases h
    exact ⟨(Node.ascending_iff keys).1 hsorted, rfl⟩
  next => cases h

end Exactness

theorem zip_cells {α β : Type} (cells : List (α × β)) :
    (cells.map Prod.fst).zip (cells.map Prod.snd) = cells := by
  rw [List.zip_map']
  exact List.map_id cells

/-- **What is accepted is well formed**, and its encoding starts the payload up to the reserved
byte. -/
theorem decode_exact {payload : Bytes} {page : Nat} {n : Node} (h : decode payload page = .ok n) :
    n.Readable ∧ Ids64 n ∧ ∃ reserved, (encode n).set 1 reserved <+: payload := by
  obtain ⟨rest, hscan⟩ : ∃ rest, Scans (readNode page) payload n rest := by
    unfold decode at h
    cases hrun : readNode page payload with
    | error e =>
      rw [hrun] at h
      cases h
    | ok out =>
      rw [hrun] at h
      cases h
      exact ⟨out.2, hrun⟩
  -- the header; the reserved byte is read and dropped, so only it may differ
  obtain ⟨kind, mid₁, hkind, hread⟩ := Scans.of_bind hscan
  obtain ⟨reserved, mid₂, hreserved, hread⟩ := Scans.of_bind hread
  obtain ⟨count, mid₃, hcount, hbody⟩ := Scans.of_bind hread
  obtain ⟨rfl, -⟩ := u8_exact hkind
  obtain ⟨rfl, -⟩ := u8_exact hreserved
  obtain ⟨rfl, -⟩ := word_exact 2 hcount
  by_cases hleaf : kind = kindLeaf
  · rw [if_pos hleaf] at hbody
    obtain ⟨cells, mid₄, hcells, hrest⟩ := Scans.of_bind hbody
    obtain ⟨u, mid₅, hascending, hret⟩ := Scans.of_bind hrest
    obtain ⟨rfl, rfl⟩ := hret.of_ret
    obtain ⟨hsorted, rfl⟩ := checkAscending_exact hascending
    obtain ⟨rfl, rfl, -⟩ := many_exact readLeafCell_exact count hcells
    refine ⟨⟨by simp, hsorted⟩, trivial, reserved, rest, ?_⟩
    simp [encode, hleaf, zip_cells]
  rw [if_neg hleaf] at hbody
  by_cases hinternal : kind = kindInternal
  · rw [if_pos hinternal] at hbody
    obtain ⟨first, mid₄, hfirst, hrest⟩ := Scans.of_bind hbody
    obtain ⟨cells, mid₅, hcells, hrest⟩ := Scans.of_bind hrest
    obtain ⟨u, mid₆, hascending, hret⟩ := Scans.of_bind hrest
    obtain ⟨rfl, rfl⟩ := hret.of_ret
    obtain ⟨hsorted, rfl⟩ := checkAscending_exact hascending
    obtain ⟨rfl, hlo, hhi⟩ := readChild_exact hfirst
    obtain ⟨rfl, rfl, hall⟩ := many_exact readInnerCell_exact count hcells
    have hchildren : ∀ c ∈ cells.map Prod.snd, firstDataPage ≤ c ∧ c < 2 ^ 64 := by
      intro c hc
      obtain ⟨cell, hcell, rfl⟩ := List.mem_map.1 hc
      exact hall cell hcell
    refine ⟨⟨by simp, List.forall_mem_cons.2 ⟨hlo, fun c hc => (hchildren c hc).1⟩, hsorted⟩,
      List.forall_mem_cons.2 ⟨hhi, fun c hc => (hchildren c hc).2⟩, reserved, rest, ?_⟩
    simp [encode, hinternal, zip_cells]
  -- an unknown kind fails
  · rw [if_neg hinternal] at hbody
    cases hbody

/-- **The node codec.** Well-formed nodes that fit a page come back, whatever follows them, and
every payload that is accepted is that of a well-formed node. -/
theorem node_codec :
    (∀ (n : Node) (padding : Bytes) (page : Nat), n.Readable → Ids64 n → n.encodedLen ≤ cap →
      decode (encode n ++ padding) page = .ok n) ∧
    ∀ (payload : Bytes) (page : Nat) (n : Node), decode payload page = .ok n →
      n.Readable ∧ ∃ reserved, (encode n).set 1 reserved <+: payload :=
  ⟨fun _ padding page h hids hlen => decode_encode h hids hlen padding page, fun _ _ _ h =>
    ⟨(decode_exact h).1, (decode_exact h).2.2⟩⟩

/-- A leaf of one entry, with zeros after it. -/
theorem node_codec_leaf : decode (encode (.leaf [[1]] [[2, 3]]) ++ [0, 0, 0]) 2 =
    .ok (.leaf [[1]] [[2, 3]]) :=
  node_codec.1 (.leaf [[1]] [[2, 3]]) [0, 0, 0] 2 ⟨rfl, List.pairwise_singleton ..⟩ trivial
    (by decide)

end Edb.BTree.Codec
