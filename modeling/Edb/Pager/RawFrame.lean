import Edb.Common.Checksum
import Edb.Common.Basic
import Edb.Pager.Page

/-!
# Page images

The bytes of a page, header first (little-endian):

    offset  size  field
     0      4     crc32c of what follows
     4      1     page type
     5      3     reserved (0)
     8      8     page id
    16      ...   payload

`finalize` stamps the header and `verify` checks it. A stamped page passes for its own id and no
other (`verify_finalize`), which is what `Frame` and the abstract `verify` start from; and a page
changed within four consecutive bytes, in the checksum or in what it covers, does not pass
(`checksum_detects_bursts`).
-/

namespace Edb

open Edb.Lib
open Polynomial (X)

/-- Put bytes over those at an offset (`copy_from_slice`). -/
def splice (bytes : Bytes) (off : Nat) (part : Bytes) : Bytes :=
  bytes.take off ++ part ++ bytes.drop (off + part.length)

theorem length_splice {bytes part : Bytes} {off : Nat} (h : off + part.length ≤ bytes.length) :
    (splice bytes off part).length = bytes.length := by
  simp only [splice, List.length_append, List.length_take, List.length_drop]
  omega

/-- Writing past the first of two pieces writes the second. -/
theorem splice_append {a b part : Bytes} {off : Nat} (h : a.length ≤ off) :
    splice (a ++ b) off part = a ++ splice b (off - a.length) part := by
  simp only [splice, List.take_append, List.drop_append, List.take_of_length_le h,
    List.drop_of_length_le (show a.length ≤ off + part.length by omega), List.nil_append,
    List.append_assoc, Nat.sub_add_comm h]

/-- Writing within the first of two pieces leaves the second. -/
theorem splice_append_left {a b part : Bytes} {off : Nat} (h : off + part.length ≤ a.length) :
    splice (a ++ b) off part = splice a off part ++ b := by
  simp only [splice, List.take_append_of_le_length (show off ≤ a.length by omega),
    List.drop_append_of_le_length h, List.append_assoc]

/-- Bytes written up to `off` so far, and the next ones put there. -/
theorem splice_next {done bytes part : Bytes} {off : Nat} (h : done.length = off) :
    splice (done ++ bytes.drop off) off part =
      (done ++ part) ++ bytes.drop (off + part.length) := by
  subst h
  rw [splice, List.take_left, ← List.drop_drop, ← List.drop_drop, List.drop_left]

/-- The kind of data a page holds. -/
inductive PageType where
  | metaPage
  | freelist
  | data
  deriving DecidableEq, Repr

namespace PageType

def toU8 : PageType → UInt8
  | .metaPage => 1
  | .freelist => 2
  | .data => 3

def fromU8 (byte : UInt8) : Option PageType :=
  if byte = 1 then some .metaPage
  else if byte = 2 then some .freelist
  else if byte = 3 then some .data
  else none

theorem fromU8_toU8 (t : PageType) : fromU8 t.toU8 = some t := by cases t <;> decide

end PageType

/-- A full in-memory page image. -/
@[ext]
structure RawFrame where
  bytes : Bytes
  size : bytes.length = pageSize

namespace RawFrame

def crcOff : Nat := 0
def typeOff : Nat := 4
def flagsOff : Nat := 5
def idOff : Nat := 8

/-- A zeroed page image. -/
def zeroed : RawFrame where
  bytes := List.replicate pageSize 0
  size := List.length_replicate

/-- Write bytes inside the page. -/
def put (frame : RawFrame) (off : Nat) (part : Bytes) (h : off + part.length ≤ pageSize) :
    RawFrame where
  bytes := splice frame.bytes off part
  size := (length_splice (by rw [frame.size]; exact h)).trans frame.size

def readU32 (frame : RawFrame) (off : Nat) : UInt32 :=
  UInt32.ofNat (fromLeBytes ((frame.bytes.drop off).take 4))

def readU64 (frame : RawFrame) (off : Nat) : Nat := fromLeBytes ((frame.bytes.drop off).take 8)

/-- Interpret a raw buffer as a page image. -/
def asFrame (bytes : Bytes) (page : Nat) : Except PagerError RawFrame :=
  if h : bytes.length = pageSize then .ok ⟨bytes, h⟩
  else .error (.corruption (.truncatedPage page))

def pageType (frame : RawFrame) : Except PagerError PageType :=
  match PageType.fromU8 (frame.bytes.getD typeOff 0) with
  | some t => .ok t
  | none => .error (.corruption (.unknownPageType (frame.bytes.getD typeOff 0)))

def pageId (frame : RawFrame) : Nat := frame.readU64 idOff

/-- Verify a raw buffer: correct length, matching checksum and matching self-id. -/
def verify (bytes : Bytes) (expected : Nat) : Except PagerError RawFrame := do
  let frame ← asFrame bytes expected
  let stored := frame.readU32 crcOff
  let computed := crc32c (frame.bytes.drop typeOff)
  if stored ≠ computed then .error (.corruption (.checksum expected))
  else if frame.pageId ≠ expected then
    .error (.corruption (.pageIdMismatch expected frame.pageId))
  else pure frame

/-- Stamp the header and recompute the checksum. -/
def finalize (frame : RawFrame) (type : PageType) (id : Nat) : RawFrame :=
  let frame := frame.put typeOff [type.toU8] (by simp only [List.length_singleton]; decide)
  let frame := frame.put flagsOff [0] (by simp only [List.length_singleton]; decide)
  let frame := frame.put 6 [0] (by simp only [List.length_singleton]; decide)
  let frame := frame.put 7 [0] (by simp only [List.length_singleton]; decide)
  let frame := frame.put idOff (toLeBytes 8 id) (by rw [length_toLeBytes]; decide)
  let crc := crc32c (frame.bytes.drop typeOff)
  frame.put crcOff (toLeBytes 4 crc.toNat) (by rw [length_toLeBytes]; decide)

/-! ## What the checksum covers -/

/-- What the checksum of a stamped page covers. -/
def body (frame : RawFrame) (type : PageType) (id : Nat) : Bytes :=
  [type.toU8, 0, 0, 0] ++ (toLeBytes 8 id ++ frame.bytes.drop headerSize)

/-- The checksum as it lies in the page. -/
def checksum (body : Bytes) : Bytes := toLeBytes 4 (crc32c body).toNat

@[simp] theorem length_checksum (body : Bytes) : (checksum body).length = 4 := length_toLeBytes ..

theorem length_body (frame : RawFrame) (type : PageType) (id : Nat) :
    (body frame type id).length = pageSize - 4 := by
  have hsize := frame.size
  simp only [body, List.length_append, List.length_cons, List.length_nil, length_toLeBytes,
    List.length_drop, hsize]
  decide

/-- A stamped page is its checksum and what that covers. -/
theorem finalize_bytes (frame : RawFrame) (type : PageType) (id : Nat) :
    (finalize frame type id).bytes = checksum (body frame type id) ++ body frame type id := by
  have hsize := frame.size
  have hcrc : (frame.bytes.take 4).length = 4 := by
    rw [List.length_take, hsize]
    decide
  -- the header, field by field
  obtain ⟨header, hheader⟩ : ∃ header, header = frame.bytes.take 4 ++ [type.toU8] ++ [0] ++ [0] ++
      [0] ++ toLeBytes 8 id := ⟨_, rfl⟩
  have hstamped : splice (splice (splice (splice (splice frame.bytes 4 [type.toU8]) 5 [0]) 6 [0])
      7 [0]) 8 (toLeBytes 8 id) = header ++ frame.bytes.drop 16 := by
    conv_lhs => rw [← List.take_append_drop 4 frame.bytes]
    rw [splice_next hcrc, List.length_singleton, splice_next (by simp [hcrc]),
      List.length_singleton, splice_next (by simp [hcrc]), List.length_singleton,
      splice_next (by simp [hcrc]), List.length_singleton, splice_next (by simp [hcrc]),
      length_toLeBytes, hheader]
  have hbody : (header ++ frame.bytes.drop 16).drop 4 = body frame type id := by
    rw [hheader]
    simp only [List.append_assoc]
    exact List.drop_left' hcrc
  change splice (splice (splice (splice (splice (splice frame.bytes 4 [type.toU8]) 5 [0]) 6 [0])
      7 [0]) 8 (toLeBytes 8 id)) 0 (toLeBytes 4 (crc32c ((splice (splice (splice (splice (splice
      frame.bytes 4 [type.toU8]) 5 [0]) 6 [0]) 7 [0]) 8 (toLeBytes 8 id)).drop 4)).toNat) = _
  rw [hstamped, hbody, splice, List.take_zero, List.nil_append, length_toLeBytes, Nat.zero_add,
    hbody]
  rfl

/-! ## Verification -/

/-- A page is taken apart into its checksum and the rest. -/
theorem verify_append {crc rest : Bytes} (hcrc : crc.length = 4)
    (hrest : rest.length = pageSize - 4) (expected : Nat) :
    verify (crc ++ rest) expected =
      if crc ≠ checksum rest then .error (.corruption (.checksum expected))
      else if fromLeBytes ((rest.drop 4).take 8) ≠ expected then
        .error (.corruption (.pageIdMismatch expected (fromLeBytes ((rest.drop 4).take 8))))
      else .ok ⟨crc ++ rest, by rw [List.length_append, hcrc, hrest]; decide⟩ := by
  have hlen : (crc ++ rest).length = pageSize := by
    rw [List.length_append, hcrc, hrest]
    decide
  have hstored : (⟨crc ++ rest, hlen⟩ : RawFrame).readU32 crcOff =
      UInt32.ofNat (fromLeBytes crc) := by
    rw [readU32, crcOff, List.drop_zero, List.take_left' hcrc]
  have hcovered : (crc ++ rest).drop typeOff = rest := List.drop_left' hcrc
  have hid : (⟨crc ++ rest, hlen⟩ : RawFrame).pageId = fromLeBytes ((rest.drop 4).take 8) := by
    rw [pageId, readU64, idOff, show 8 = typeOff + 4 from rfl, ← List.drop_drop, hcovered]
  -- the stored word is the checksum exactly when its bytes are
  have hmatch : UInt32.ofNat (fromLeBytes crc) = crc32c rest ↔ crc = checksum rest := by
    have hlt : fromLeBytes crc < 256 ^ 4 := hcrc ▸ fromLeBytes_lt crc
    have hback : toLeBytes 4 (fromLeBytes crc) = crc := by
      have := toLeBytes_fromLeBytes crc
      rwa [hcrc] at this
    constructor
    · intro h
      rw [checksum, ← h, UInt32.toNat_ofNat_of_lt' hlt, hback]
    · intro h
      rw [h, checksum, fromLeBytes_toLeBytes (crc32c rest).toNat_lt, UInt32.ofNat_toNat]
  rw [verify, asFrame, dif_pos hlen]
  change (if (⟨crc ++ rest, hlen⟩ : RawFrame).readU32 crcOff ≠
    crc32c ((crc ++ rest).drop typeOff) then _ else if (⟨crc ++ rest, hlen⟩ : RawFrame).pageId ≠
      expected then _ else _) = _
  rw [hstored, hcovered, hid]
  by_cases h : crc = checksum rest
  · rw [if_neg (not_not.2 (hmatch.2 h)), if_neg (not_not.2 h)]
    rfl
  · rw [if_pos fun heq => h (hmatch.1 heq), if_pos h]

/-- **A stamped page passes for its own id**, and for no other. -/
theorem verify_finalize (frame : RawFrame) (type : PageType) {id : Nat} (h : id < 2 ^ 64)
    (expected : Nat) : verify (finalize frame type id).bytes expected =
      if id = expected then .ok (finalize frame type id)
      else .error (.corruption (.pageIdMismatch expected id)) := by
  have hid : fromLeBytes (((body frame type id).drop 4).take 8) = id := by
    have hdrop : (body frame type id).drop 4 =
        toLeBytes 8 id ++ frame.bytes.drop headerSize := rfl
    rw [hdrop, List.take_left' (length_toLeBytes 8 id), fromLeBytes_toLeBytes h]
  have hverify := verify_append (length_checksum (body frame type id))
    (length_body frame type id) expected
  rw [if_neg (not_not.2 rfl), hid] at hverify
  by_cases hexp : id = expected
  · rw [if_neg (not_not.2 hexp)] at hverify
    rw [finalize_bytes, if_pos hexp]
    exact hverify.trans (congrArg _ (RawFrame.ext (finalize_bytes frame type id).symm))
  · rw [if_pos hexp] at hverify
    rw [finalize_bytes, hverify, if_neg hexp]

/-! ## Damage -/

/-- A page whose checksum does not match is refused. -/
theorem verify_mismatch {crc rest : Bytes} (hcrc : crc.length = 4)
    (hrest : rest.length = pageSize - 4) (hne : crc ≠ checksum rest) (expected : Nat) :
    verify (crc ++ rest) expected = .error (.corruption (.checksum expected)) := by
  rw [verify_append hcrc hrest, if_pos hne]

/-- **The checksum is a true CRC, and detects bursts.** Taking the bytes in by table look-up is the
bit by bit division by the reflected Castagnoli polynomial, with initial register and final xor of
all ones, and the register holds the remainder of the division of polynomials; a stamped page with
a change within four consecutive bytes, inside or outside the checksum, does not pass. -/
theorem checksum_detects_bursts :
    (∀ data : Bytes, crc32c data = data.foldl
        (fun (crc : UInt32) byte => (crc >>> 8) ^^^ buildTable.get (tableIndex crc byte))
        0xFFFFFFFF ^^^ 0xFFFFFFFF ∧
      (crc32c data).toBitVec =
        Crc.divide castagnoli (BitVec.allOnes 32) (bits data) ^^^ BitVec.allOnes 32 ∧
      Crc.poly ((crc32c data).toBitVec ^^^ BitVec.allOnes 32) =
        (X ^ (8 * data.length) * Crc.poly (BitVec.allOnes 32) +
          Crc.message (bits data) * X ^ 32) %ₘ Crc.generator castagnoli) ∧
      ∀ (frame : RawFrame) (type : PageType) (id off : Nat) (part : Bytes) (expected : Nat),
        part.length ≤ 4 → off + part.length ≤ pageSize →
        off + part.length ≤ typeOff ∨ typeOff ≤ off →
        splice (finalize frame type id).bytes off part ≠ (finalize frame type id).bytes →
        verify (splice (finalize frame type id).bytes off part) expected =
          .error (.corruption (.checksum expected)) := by
  constructor
  · intro data
    refine ⟨?_, crc32c_eq_divide data, ?_⟩
    · rw [crc32c, funext fun crc => funext (crcByte_eq_lookup crc)]
    · rw [crc32c_eq_divide, BitVec.xor_assoc, BitVec.xor_self, BitVec.xor_zero,
        Crc.poly_divide castagnoli (by decide), length_bits]
  · intro frame type id off part expected hfour hfit hplace hne
    have hlen := length_body frame type id
    rw [finalize_bytes] at hne ⊢
    generalize body frame type id = rest at hlen hne ⊢
    rcases hplace with hin | hout
    · -- the checksum itself changed
      have hin' : off + part.length ≤ (checksum rest).length := by rwa [length_checksum]
      rw [splice_append_left hin'] at hne ⊢
      refine verify_mismatch ?_ hlen (fun heq => hne (by rw [heq])) expected
      rw [length_splice hin', length_checksum]
    · -- what it covers changed
      have hout' : (checksum rest).length ≤ off := by rwa [length_checksum]
      rw [splice_append hout', length_checksum] at hne ⊢
      obtain ⟨k, hk⟩ : ∃ k, k = off - 4 := ⟨_, rfl⟩
      have hfit' : k + part.length ≤ rest.length := by
        have : typeOff = 4 := rfl
        omega
      rw [← hk] at hne ⊢
      refine verify_mismatch (length_checksum rest) ((length_splice hfit').trans hlen)
        (fun heq => ?_) expected
      have hcrc : crc32c rest = crc32c (splice rest k part) := by
        have := congrArg fromLeBytes heq
        rw [checksum, checksum, fromLeBytes_toLeBytes (crc32c _).toNat_lt,
          fromLeBytes_toLeBytes (crc32c _).toNat_lt] at this
        exact UInt32.toNat_inj.1 this
      -- equal checksums of the old and the new bytes are a burst that the CRC does not see
      have hsplit : rest = rest.take k ++ (rest.drop k).take part.length ++
          rest.drop (k + part.length) := by
        rw [List.append_assoc, ← List.drop_drop, List.take_append_drop, List.take_append_drop]
      have hold : ((rest.drop k).take part.length).length = part.length := by
        rw [List.length_take, List.length_drop]
        omega
      have hsame : (rest.drop k).take part.length = part := by
        by_contra hdiff
        refine crc32c_burst (rest.take k) (rest.drop (k + part.length)) hold (by omega) hdiff ?_
        rw [← hsplit]
        exact hcrc
      rw [hsame] at hsplit
      exact hne (congrArg _ hsplit.symm)

/-- The first byte of the payload changes. -/
theorem checksum_detects_bursts_payload :
    verify (splice (finalize zeroed .data 2).bytes headerSize [1]) 2 =
      .error (.corruption (.checksum 2)) := by
  refine checksum_detects_bursts.2 zeroed .data 2 headerSize [1] 2 (by decide) (by decide)
    (.inr (by decide)) ?_
  rw [finalize_bytes, splice_append (by rw [length_checksum]; decide), length_checksum]
  intro h
  exact absurd (List.append_cancel_left h) (by decide +kernel)

end RawFrame

end Edb
