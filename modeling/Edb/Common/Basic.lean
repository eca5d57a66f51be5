import Edb.Lib.Lex
import Mathlib.Data.List.Lex
import Mathlib.Order.Lattice

/-!
# What all layers share

Byte strings, the little-endian words in them, their checksum, and the error categories.
-/

namespace Edb

open Edb.Lib

/-! ## Byte strings

Keys and values are byte strings, compared bytewise and shorter-prefix-first, which is the
order of `Vec<u8>` and `[u8]` in the source. -/

/-- The numeric order of bytes. -/
instance instLinearOrderUInt8 : LinearOrder UInt8 where
  le := (· ≤ ·)
  lt := (· < ·)
  le_refl a := UInt8.le_refl a
  le_trans a b c := UInt8.le_trans
  le_antisymm a b := UInt8.le_antisymm
  le_total a b := UInt8.le_total a b
  lt_iff_le_not_ge a b := by
    rw [UInt8.not_le]
    exact ⟨fun h => ⟨UInt8.le_of_lt h, h⟩, And.right⟩
  toDecidableLE := inferInstance
  toDecidableLT := inferInstance
  toDecidableEq := inferInstance

/-- A byte string. -/
abbrev Bytes := List UInt8

/-! ## Little-endian words

The words of rows, page headers and node cells (`to_le_bytes`, `from_le_bytes`). Their bytes are
digits to the base 256, lowest first, so a word comes back from its bytes and bytes from their
word. -/

/-- The `n` little-endian bytes of a word. -/
def toLeBytes (n v : Nat) : Bytes := ((Lex.digits 256 n v).map UInt8.ofNat).reverse

/-- The word its little-endian bytes spell. -/
def fromLeBytes (bytes : Bytes) : Nat := Lex.ofDigits 256 (bytes.reverse.map UInt8.toNat)

@[simp] theorem length_toLeBytes (n v : Nat) : (toLeBytes n v).length = n := by simp [toLeBytes]

theorem fromLeBytes_toLeBytes {n v : Nat} (h : v < 256 ^ n) : fromLeBytes (toLeBytes n v) = v := by
  have hbyte : ∀ d ∈ Lex.digits 256 n v, (UInt8.toNat ∘ UInt8.ofNat) d = d :=
    fun d hd => UInt8.toNat_ofNat_of_lt' (Lex.digits_lt n h d hd)
  rw [fromLeBytes, toLeBytes, List.reverse_reverse, List.map_map, List.map_congr_left hbyte,
    List.map_id', Lex.ofDigits_digits n h]

theorem digit_lt (bytes : Bytes) : ∀ d ∈ bytes.reverse.map UInt8.toNat, d < 256 := by
  intro d hd
  obtain ⟨b, -, rfl⟩ := List.mem_map.1 hd
  exact b.toNat_lt

theorem fromLeBytes_lt (bytes : Bytes) : fromLeBytes bytes < 256 ^ bytes.length := by
  have h := Lex.ofDigits_lt (digit_lt bytes)
  rwa [List.length_map, List.length_reverse] at h

/-- The bytes of a word come back from its value. -/
theorem toLeBytes_fromLeBytes (bytes : Bytes) :
    toLeBytes bytes.length (fromLeBytes bytes) = bytes := by
  have hlen : (bytes.reverse.map UInt8.toNat).length = bytes.length := by simp
  have hbyte : (UInt8.ofNat ∘ UInt8.toNat) = id := funext (fun b => UInt8.ofNat_toNat)
  rw [toLeBytes, fromLeBytes, ← hlen, Lex.digits_ofDigits (digit_lt bytes), List.map_map, hbyte,
    List.map_id, List.reverse_reverse]

/-! ## CRC32C

The table-driven checksum of pages and cursor tokens. -/

/-- Reflected Castagnoli polynomial. -/
def crcPoly : UInt32 := 0x82F63B78

/-- One bit of a table entry. -/
def crcBit (crc : UInt32) : UInt32 :=
  if crc &&& 1 = 1 then (crc >>> 1) ^^^ crcPoly else crc >>> 1

/-- The table entry of a byte: eight bits. -/
def crcEntry (i : UInt32) : UInt32 := (List.range 8).foldl (fun crc _ => crcBit crc) i

/-- Take one byte into the checksum. -/
def crcByte (crc : UInt32) (byte : UInt8) : UInt32 :=
  (crc >>> 8) ^^^ crcEntry ((crc ^^^ byte.toUInt32) &&& 0xFF)

/-- The CRC32C of a byte string. -/
def crc32c (data : Bytes) : UInt32 := data.foldl crcByte 0xFFFFFFFF ^^^ 0xFFFFFFFF

/-! ## Error taxonomy

The seven error categories every layer maps its errors to. The writer stops on `io` and
`corruption` and rejects the single transaction on everything else. -/

/-- The category of an error, shared by all layers. -/
inductive ErrorCategory where
  | validation
  | constraint
  | conflict
  | notFound
  | corruption
  | resourceLimit
  | io
  deriving DecidableEq, Repr

end Edb
