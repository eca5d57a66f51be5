import Edb.BTree.Tree
import Edb.Catalog.Decode
import Edb.Catalog.Probe

/-!
# The layout of the catalog tree

The published root is the catalog tree. Its entries are of four kinds, keyed so that each kind is
one band: the definition of a table, the root of its data tree, the next value of its sequence,
and the root of each of its index trees.

`StoreKey` is what a key is the key of. Two of them never have the same bytes, and a band holds
the keys it is meant for and no others (`tblBand_spec`, `irootBand_spec`), whatever the tables are
called: no encoded name continues another one.
-/

namespace Edb.Catalog

open Edb.Types Edb.Lib

/-! ## Keys and bands -/

def entryKey (band table : String) : CatResult Bytes :=
  ofType (encodeKey [.text band, .text table])

/-- The key of a table's schema entry. -/
def tblKey (table : String) : CatResult Bytes := entryKey "tbl" table

/-- The key of a table's data-root entry. -/
def rootKey (table : String) : CatResult Bytes := entryKey "root" table

/-- The key of a table's sequence entry. -/
def seqKey (table : String) : CatResult Bytes := entryKey "seq" table

/-- The key of one index's root entry. -/
def irootKey (table index : String) : CatResult Bytes :=
  ofType (encodeKey [.text "iroot", .text table, .text index])

/-- Set the last byte, the terminator of an encoded text, to `0x01`. -/
def bumpLast (lo : Bytes) : Bytes :=
  match lo.getLast? with
  | none => lo
  | some _ => lo.dropLast ++ [0x01]

/-- The bounds of a table's index roots. -/
def irootBand (table : String) : CatResult (Bytes × Bytes) := do
  let lo ← ofType (encodeKey [.text "iroot", .text table])
  pure (lo, bumpLast lo)

/-- The bounds of the table definitions. -/
def tblBand : CatResult (Bytes × Bytes) := do
  let lo ← ofType (encodeKey [.text "tbl"])
  pure (lo, bumpLast lo)

/-! ## Values -/

/-- A root entry. The source's page ids are 64-bit words; a larger number is none. -/
def encodeRoot (root : Nat) : CatResult Bytes :=
  if root < 2 ^ 64 then .ok (toLeBytes 8 root) else .error (.corrupt .badValue)

def decodeRoot (bytes : Bytes) : CatResult Nat :=
  if bytes.length = 8 then .ok (fromLeBytes bytes) else .error (.corrupt .badValue)

def encodeSeq (next : Int64) : Bytes := toLeBytes 8 next.toUInt64.toNat

def decodeSeq (bytes : Bytes) : CatResult Int64 :=
  if bytes.length = 8 then .ok (UInt64.ofNat (fromLeBytes bytes)).toInt64
  else .error (.corrupt .badValue)

theorem decodeRoot_encodeRoot {root : Nat} {bytes : Bytes} (h : encodeRoot root = .ok bytes) :
    decodeRoot bytes = .ok root := by
  unfold encodeRoot at h
  split at h
  · next hlt =>
    cases h
    rw [decodeRoot, if_pos (length_toLeBytes 8 root), fromLeBytes_toLeBytes (by omega)]
  · cases h

/-! ## What a key is the key of -/

/-- The entries of the catalog tree. -/
inductive StoreKey where
  | tbl (table : String)
  | root (table : String)
  | seq (table : String)
  | iroot (table index : String)
  deriving DecidableEq, Repr

namespace StoreKey

/-- The table an entry belongs to. -/
def table : StoreKey → String
  | tbl table => table
  | root table => table
  | seq table => table
  | iroot table _ => table

def names : StoreKey → List String
  | tbl table => ["tbl", table]
  | root table => ["root", table]
  | seq table => ["seq", table]
  | iroot table index => ["iroot", table, index]

/-- The encoding of a key of texts. -/
def encode (names : List String) : Bytes := (names.map Value.text).flatMap component

def bytes (k : StoreKey) : Bytes := encode k.names

theorem keyable_texts (names : List String) : ∀ v ∈ names.map Value.text, v.Keyable := by
  intro v hv
  obtain ⟨s, -, rfl⟩ := List.mem_map.1 hv
  exact fun h => by cases h

theorem encodeKey_texts (names : List String) :
    encodeKey (names.map Value.text) = .ok (encode names) := encodeKey_eq (keyable_texts names)

theorem encode_inj {names names' : List String} (h : encode names = encode names') :
    names = names' := by
  have hdecode : ∀ names, decodeKey (encode names) = .ok (names.map Value.text) := by
    intro names
    rw [encode, decodeKey_flatMap (keyable_texts names), List.map_map]
    rfl
  have htexts := hdecode names
  rw [h, hdecode names'] at htexts
  exact (List.map_injective_iff.2 (fun _ _ h => Value.text.inj h) (Except.ok.inj htexts)).symm

theorem names_inj {k k' : StoreKey} (h : k.names = k'.names) : k = k' := by
  cases k <;> cases k' <;> simp_all [names]

theorem bytes_inj {k k' : StoreKey} : k.bytes = k'.bytes ↔ k = k' :=
  ⟨fun h => names_inj (encode_inj h), fun h => h ▸ rfl⟩

theorem text_logicalCmp {s t : String} : (Value.text s).logicalCmp (.text t) = .eq ↔ s = t := by
  have hcmp : (Value.text s).logicalCmp (.text t) = cmpBytes (asBytes s) (asBytes t) := rfl
  rw [hcmp, cmpBytes_eq]
  refine ⟨fun h => ?_, fun h => h ▸ rfl⟩
  have hs := fromUtf8_asBytes s
  rw [h, fromUtf8_asBytes t] at hs
  exact (Option.some.inj hs).symm

/-- The key of some names starts with that of others exactly if the names do. -/
theorem encode_prefix_iff {names names' : List String} (hlen : names.length ≤ names'.length) :
    encode names <+: encode names' ↔ names <+: names' := by
  have hiff := component_embeds.isPrefix_flatMap_iff (t := []) (fun _ _ => cmpBytes_eq)
    (keyable_texts names) (keyable_texts names') (by simpa using hlen)
  rw [List.append_nil, List.length_map, ← List.map_take, List.forall₂_map_left_iff,
    List.forall₂_map_right_iff] at hiff
  rw [encode, encode, hiff, List.prefix_iff_eq_take]
  simp only [text_logicalCmp, List.forall₂_eq_eq_eq]
  exact eq_comm

/-- An encoded text ends in its terminator. -/
theorem encode_terminated (names : List String) (name : String) :
    ∃ init, encode (names ++ [name]) = init ++ [0x00] := by
  have hescape : ∃ init, Lex.escape 0x00 0xFF (asBytes name) = init ++ [0x00, 0x00] := by
    induction asBytes name with
    | nil => exact ⟨[], rfl⟩
    | cons b bytes ih =>
      obtain ⟨init, hinit⟩ := ih
      by_cases hb : b = 0x00
      · exact ⟨b :: 0xFF :: init, by simp [hb, Lex.escape_cons_self, hinit]⟩
      · exact ⟨b :: init, by simp [Lex.escape_cons_of_ne _ _ hb, hinit]⟩
  obtain ⟨init, hescape⟩ := hescape
  refine ⟨encode names ++ keyTag (.text name) :: (init ++ [0x00]), ?_⟩
  simp [encode, component, keyBody, hescape]

/-- The bounds of a band hold the keys that start with its names, and no others. -/
theorem inBounds_iff (names : List String) (name : String) {k : StoreKey}
    (hlen : (names ++ [name]).length ≤ k.names.length) :
    BTree.inBounds (some (encode (names ++ [name]))) (some (bumpLast (encode (names ++ [name]))))
      k.bytes = true ↔ names ++ [name] <+: k.names := by
  have hbump : successor (encode (names ++ [name])) =
      some (bumpLast (encode (names ++ [name]))) := by
    obtain ⟨init, hinit⟩ := encode_terminated names name
    rw [hinit]
    simp [successor, bumpLast]
  have hbounds : (encode (names ++ [name]) ≤ k.bytes ∧
      ∀ hi ∈ successor (encode (names ++ [name])), k.bytes < hi) ↔
      encode (names ++ [name]) <+: k.bytes := mem_bounds_iff
  rw [hbump] at hbounds
  rw [← encode_prefix_iff hlen]
  refine Iff.trans ?_ hbounds
  simp [BTree.inBounds]

theorem two_le_length (k : StoreKey) : 2 ≤ k.names.length := by
  cases k <;> simp [names]

end StoreKey

theorem tblKey_eq (table : String) : tblKey table = .ok (StoreKey.tbl table).bytes :=
  congrArg ofType (StoreKey.encodeKey_texts ["tbl", table])

theorem rootKey_eq (table : String) : rootKey table = .ok (StoreKey.root table).bytes :=
  congrArg ofType (StoreKey.encodeKey_texts ["root", table])

theorem seqKey_eq (table : String) : seqKey table = .ok (StoreKey.seq table).bytes :=
  congrArg ofType (StoreKey.encodeKey_texts ["seq", table])

theorem irootKey_eq (table index : String) :
    irootKey table index = .ok (StoreKey.iroot table index).bytes :=
  congrArg ofType (StoreKey.encodeKey_texts ["iroot", table, index])

/-- The band of a table's index roots has the index roots of that table, and no other entries. -/
theorem irootBand_spec (table : String) : ∃ lo hi, irootBand table = .ok (lo, hi) ∧
    ∀ k : StoreKey, BTree.inBounds (some lo) (some hi) k.bytes = true ↔
      ∃ index, k = .iroot table index := by
  refine ⟨_, _, ?_, fun k => (StoreKey.inBounds_iff ["iroot"] table k.two_le_length).trans ?_⟩
  · have hlo := StoreKey.encodeKey_texts ["iroot", table]
    rw [irootBand]
    exact (Result.bind_eq_ok.2 ⟨_, congrArg ofType hlo, rfl⟩)
  · cases k <;> simp [StoreKey.names, eq_comm]

theorem tblBand_spec : ∃ lo hi, tblBand = .ok (lo, hi) ∧
    ∀ k : StoreKey, BTree.inBounds (some lo) (some hi) k.bytes = true ↔
      ∃ table, k = .tbl table := by
  have hlen : ∀ k : StoreKey, ([] ++ ["tbl"]).length ≤ k.names.length := fun k =>
    le_trans (Nat.le_succ 1) k.two_le_length
  refine ⟨_, _, ?_, fun k => (StoreKey.inBounds_iff [] "tbl" (hlen k)).trans ?_⟩
  · have hlo := StoreKey.encodeKey_texts ["tbl"]
    rw [tblBand]
    exact (Result.bind_eq_ok.2 ⟨_, congrArg ofType hlo, rfl⟩)
  · cases k <;> simp [StoreKey.names]

end Edb.Catalog
