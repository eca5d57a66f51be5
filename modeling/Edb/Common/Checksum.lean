import Edb.Common.Basic
import Edb.Lib.Crc

/-!
# The checksum is a cyclic redundancy check

The table-driven `crc32c` is the bit by bit division by the Castagnoli polynomial: a table entry
is eight shifts of the register, and taking a byte in is eight shifts of it with the byte at the
low end.
-/

namespace Edb

open Edb.Lib

/-- The generator of the checksum, reflected and without its leading term. -/
def castagnoli : BitVec 32 := crcPoly.toBitVec

/-- The bits of a byte, lowest first. -/
def byteBits (b : UInt8) : List Bool := (List.range 8).map b.toBitVec.getLsbD

/-- The bits of a byte string, in the order they are divided. -/
def bits (data : Bytes) : List Bool := data.flatMap byteBits

@[simp] theorem length_byteBits (b : UInt8) : (byteBits b).length = 8 := by simp [byteBits]

@[simp] theorem bits_cons (b : UInt8) (data : Bytes) :
    bits (b :: data) = byteBits b ++ bits data := List.flatMap_cons

@[simp] theorem bits_append (data data' : Bytes) :
    bits (data ++ data') = bits data ++ bits data' := List.flatMap_append

theorem length_bits (data : Bytes) : (bits data).length = 8 * data.length := by
  induction data with
  | nil => rfl
  | cons b data ih =>
    rw [bits_cons, List.length_append, length_byteBits, ih, List.length_cons]
    omega

/-- A byte enters the register as it is. -/
theorem word_byteBits (b : UInt8) : Crc.word 32 (byteBits b) = b.toBitVec.setWidth 32 := by
  apply BitVec.eq_of_getLsbD_eq
  intro i hi
  rw [Crc.getLsbD_word, BitVec.getLsbD_setWidth]
  by_cases hlt : i < 8
  · simp [byteBits, hi, hlt]
  · have hnone : b.toBitVec.getLsbD i = false := BitVec.getLsbD_of_ge _ _ (by omega)
    simp [byteBits, hi, hlt, hnone]

theorem bits_inj {data data' : Bytes} (h : bits data = bits data') : data = data' := by
  induction data generalizing data' with
  | nil =>
    have hlen := congrArg List.length h
    rw [length_bits, length_bits] at hlen
    exact (List.length_eq_zero_iff.1 (by simpa using hlen.symm)).symm
  | cons b data ih =>
    cases data' with
    | nil =>
      have hlen := congrArg List.length h
      simp [length_bits] at hlen
    | cons b' data' =>
      rw [bits_cons, bits_cons] at h
      obtain ⟨hb, hdata⟩ := List.append_inj h (by simp)
      have hword := congrArg (Crc.word 32) hb
      rw [word_byteBits, word_byteBits] at hword
      have hbyte := congrArg (fun r => r.setWidth 8) hword
      simp only [BitVec.setWidth_setWidth_of_le _ (show 8 ≤ 32 by decide),
        BitVec.setWidth_eq] at hbyte
      rw [UInt8.toBitVec_inj.1 hbyte, ih hdata]

/-- One bit of a table entry is one shift. -/
theorem crcBit_toBitVec (crc : UInt32) :
    (crcBit crc).toBitVec = Crc.shift castagnoli crc.toBitVec := by
  have hlow : crc &&& 1 = 1 ↔ crc.toBitVec.getLsbD 0 = true := by
    rw [← UInt32.toBitVec_inj, UInt32.toBitVec_and]
    change crc.toBitVec &&& 1#32 = 1#32 ↔ _
    rw [BitVec.and_one_eq_setWidth_ofBool_getLsbD]
    cases crc.toBitVec.getLsbD 0 <;> decide
  unfold crcBit Crc.shift
  by_cases h : crc &&& 1 = 1
  · rw [if_pos h, if_pos (hlow.1 h), UInt32.toBitVec_xor]
    rfl
  · rw [if_neg h, if_neg fun hbit => h (hlow.2 hbit)]
    rfl

/-- A table entry is eight shifts. -/
theorem crcEntry_toBitVec (i : UInt32) :
    (crcEntry i).toBitVec = (Crc.shift castagnoli)^[8] i.toBitVec := by
  have hfold : ∀ n, ((List.range n).foldl (fun crc _ => crcBit crc) i).toBitVec =
      (Crc.shift castagnoli)^[n] i.toBitVec := by
    intro n
    induction n with
    | zero => rfl
    | succ n ih =>
      rw [List.range_succ, List.foldl_append, List.foldl_cons, List.foldl_nil, crcBit_toBitVec, ih,
        Function.iterate_succ_apply']
  exact hfold 8

/-- The table, an entry for each value of a byte. -/
def buildTable : Vector UInt32 256 := Vector.ofFn fun i => crcEntry (UInt32.ofNat i)

/-- The entry that a register and a byte select. -/
def tableIndex (crc : UInt32) (byte : UInt8) : Fin 256 where
  val := ((crc ^^^ byte.toUInt32) &&& 0xFF).toNat
  isLt := by
    rw [UInt32.toNat_and]
    exact Nat.lt_succ_of_le Nat.and_le_right

/-- A byte is taken in by one look-up in the table. -/
theorem crcByte_eq_lookup (crc : UInt32) (byte : UInt8) :
    crcByte crc byte = (crc >>> 8) ^^^ buildTable.get (tableIndex crc byte) := by
  have hentry : buildTable.get (tableIndex crc byte) =
      crcEntry (UInt32.ofNat (tableIndex crc byte)) :=
    Vector.getElem_ofFn (tableIndex crc byte).isLt
  rw [hentry, tableIndex, UInt32.ofNat_toNat, crcByte]

/-- Taking one byte in is dividing its eight bits. -/
theorem crcByte_toBitVec (crc : UInt32) (byte : UInt8) :
    (crcByte crc byte).toBitVec = Crc.divide castagnoli crc.toBitVec (byteBits byte) := by
  have hlen : (byteBits byte).length = 8 := length_byteBits byte
  rw [Crc.divide_eq_iterate castagnoli (by omega), hlen, word_byteBits]
  -- the low byte of the register decides the table entry, the others move down
  obtain ⟨r, hr⟩ : ∃ r, r = crc.toBitVec ^^^ byte.toBitVec.setWidth 32 := ⟨_, rfl⟩
  have hsplit : r = (r &&& 0xFF#32) ^^^ (r &&& ~~~0xFF#32) := by
    ext i
    simp only [BitVec.getElem_xor, BitVec.getElem_and, BitVec.getElem_not]
    cases r[i] <;> cases (0xFF#32)[i] <;> rfl
  have hmask : ∀ i, i < 32 → (0xFF#32).getLsbD i = decide (i < 8) := by decide
  have hhigh : ∀ i < 8, (r &&& ~~~0xFF#32).getLsbD i = false := by
    intro i hi
    have hi' : i < 32 := by omega
    rw [BitVec.getLsbD_and, BitVec.getLsbD_not, hmask i hi']
    simp [hi]
  have hshift : (r &&& ~~~0xFF#32) >>> 8 = crc.toBitVec >>> 8 := by
    apply BitVec.eq_of_getLsbD_eq
    intro i hi
    have hbyte : byte.toBitVec.getLsbD (8 + i) = false := BitVec.getLsbD_of_ge _ _ (by omega)
    rw [BitVec.getLsbD_ushiftRight, BitVec.getLsbD_ushiftRight, BitVec.getLsbD_and,
      BitVec.getLsbD_not, hr, BitVec.getLsbD_xor, BitVec.getLsbD_setWidth, hbyte]
    by_cases hlt : 8 + i < 32
    · rw [hmask _ hlt]
      simp [hlt]
    · have hnone : crc.toBitVec.getLsbD (8 + i) = false := BitVec.getLsbD_of_ge _ _ (by omega)
      simp [hlt, hnone]
  rw [← hr, hsplit, Crc.iterate_shift castagnoli _ hhigh, hshift, crcByte, UInt32.toBitVec_xor,
    crcEntry_toBitVec, BitVec.xor_comm, hr]
  rfl

/-- The register after a byte string. -/
theorem foldl_crcByte (crc : UInt32) (data : Bytes) :
    (data.foldl crcByte crc).toBitVec = Crc.divide castagnoli crc.toBitVec (bits data) := by
  induction data generalizing crc with
  | nil => rfl
  | cons b data ih =>
    rw [List.foldl_cons, ih, crcByte_toBitVec, bits_cons, Crc.divide_append]

/-- **The checksum is the division**, with initial register and final complement of all ones. -/
theorem crc32c_eq_divide (data : Bytes) : (crc32c data).toBitVec =
    Crc.divide castagnoli (BitVec.allOnes 32) (bits data) ^^^ BitVec.allOnes 32 := by
  rw [crc32c, UInt32.toBitVec_xor, foldl_crcByte]
  rfl

/-- Equal lengths, and a difference within four consecutive bytes: different checksums. -/
theorem crc32c_burst (before after : Bytes) {burst burst' : Bytes}
    (hlen : burst.length = burst'.length) (hfour : burst.length ≤ 4) (hne : burst ≠ burst') :
    crc32c (before ++ burst ++ after) ≠ crc32c (before ++ burst' ++ after) := by
  intro h
  have hreg := congrArg UInt32.toBitVec h
  rw [crc32c_eq_divide, crc32c_eq_divide, BitVec.xor_left_inj, bits_append, bits_append,
    bits_append, bits_append] at hreg
  refine Crc.divide_burst (g := castagnoli) (by decide) (BitVec.allOnes 32) (bits before)
    (bits after) ?_ ?_ (fun heq => hne (bits_inj heq)) hreg
  · rw [length_bits, length_bits, hlen]
  · rw [length_bits]
    omega

end Edb
