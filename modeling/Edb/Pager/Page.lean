import Edb.Common.Basic

/-!
# Pages

The file is an array of fixed-size pages; a page id is an index into it. A page that passes its
checksum is a `Frame`: its self-identifying page id and a body, whose constructor is the page type.
The two reserved pages hold meta images, free-list trunks hold free page ids, and data pages hold
the payload of the layer above, of which the pager knows only the encoded length (`Payload.len`).

Bytes that fail the checksum (a zeroed page, a torn write) are not frames: where a frame may
be absent the model has an `Option`.
-/

namespace Edb

/-- Pages 0 and 1 are the reserved double-buffered meta slots; data pages start here. -/
def firstDataPage : Nat := 2

def pageSize : Nat := 4096

/-- Bytes of header preceding the payload of every page. -/
def headerSize : Nat := 16

/-- Usable payload bytes per page. -/
def pagePayloadSize : Nat := pageSize - headerSize

/-- The payload of a data page, up to its encoded length. -/
class Payload (α : Type) where
  len : α → Nat

/-- The specific way a page or structure was found to be corrupt. -/
inductive CorruptionKind where
  | truncatedPage (page : Nat)
  | checksum (page : Nat)
  | pageIdMismatch (expected found : Nat)
  | unknownPageType (byte : UInt8)
  | badPageSize (found : Nat)
  | badMeta (slot : Nat)
  | noValidMeta
  | freelistOutOfRange (id : Nat)
  | freelistCycle (id : Nat)
  | freelistBadType (id : Nat)
  | freelistBadCount (id : Nat)
  | freelistDuplicate (id : Nat)
  | freelistLenMismatch (counted recorded : Nat)
  deriving DecidableEq, Repr

inductive PagerError where
  /-- A read past the end of the backing store. -/
  | outOfBounds (page size : Nat)
  | corruption (kind : CorruptionKind)
  | unsupportedVersion (found supported : Nat)
  | pageOutOfRange (id pageCount : Nat)
  | payloadTooLarge (len max : Nat)
  deriving DecidableEq, Repr

def PagerError.category : PagerError → ErrorCategory
  | .outOfBounds .. => .io
  | .corruption _ => .corruption
  | .unsupportedVersion .. => .corruption
  | .pageOutOfRange .. => .notFound
  | .payloadTooLarge .. => .validation

/-! ## Meta -/

def formatVersion : Nat := 1

/-- The committed root state recorded in a meta page. -/
structure Meta where
  formatVersion : Nat
  pageSize : Nat
  /-- Monotonic committed transaction id. -/
  txnId : Nat
  /-- Total number of pages the file accounts for (allocation high-water mark). -/
  pageCount : Nat
  /-- Head of the free-list trunk chain. -/
  freelistHead : Option Nat
  /-- Number of free page ids stored across the trunk chain. -/
  freelistLen : Nat
  /-- Root of the system catalog. -/
  catalogRoot : Option Nat
  deriving DecidableEq, Repr

/-- The meta fields as they lie in the page: an absent id is stored as 0. -/
structure MetaImage where
  formatVersion : Nat
  pageSize : Nat
  txnId : Nat
  pageCount : Nat
  freelistHead : Nat
  freelistLen : Nat
  catalogRoot : Nat
  deriving DecidableEq, Repr

def optToU64 (id : Option Nat) : Nat := id.getD 0

def u64ToOpt (value : Nat) : Option Nat := if value = 0 then none else some value

namespace Meta

/-- The meta of a freshly created, empty database: pages 0 and 1 reserved. -/
def initial : Meta where
  formatVersion := Edb.formatVersion
  pageSize := Edb.pageSize
  txnId := 0
  pageCount := firstDataPage
  freelistHead := none
  freelistLen := 0
  catalogRoot := none

def encode (m : Meta) : MetaImage where
  formatVersion := m.formatVersion
  pageSize := m.pageSize
  txnId := m.txnId
  pageCount := m.pageCount
  freelistHead := optToU64 m.freelistHead
  freelistLen := m.freelistLen
  catalogRoot := optToU64 m.catalogRoot

/-- Decode and validate the meta image read from `slot`. -/
def decode (i : MetaImage) (slot : Nat) : Except PagerError Meta :=
  if i.formatVersion ≠ Edb.formatVersion then
    .error (.unsupportedVersion i.formatVersion Edb.formatVersion)
  else if i.pageSize ≠ Edb.pageSize then
    .error (.corruption (.badPageSize i.pageSize))
  else if i.pageCount < firstDataPage then
    .error (.corruption (.badMeta slot))
  else
    .ok {
      formatVersion := i.formatVersion
      pageSize := i.pageSize
      txnId := i.txnId
      pageCount := i.pageCount
      freelistHead := u64ToOpt i.freelistHead
      freelistLen := i.freelistLen
      catalogRoot := u64ToOpt i.catalogRoot }

/-- The metas the pager itself builds: supported format, and no id that would read as absent. -/
structure Valid (m : Meta) : Prop where
  version : m.formatVersion = Edb.formatVersion
  size : m.pageSize = Edb.pageSize
  count : firstDataPage ≤ m.pageCount
  head : m.freelistHead ≠ some 0
  root : m.catalogRoot ≠ some 0

theorem u64ToOpt_optToU64 {id : Option Nat} (h : id ≠ some 0) :
    u64ToOpt (optToU64 id) = id := by
  cases id with
  | none => rfl
  | some n =>
      have hn : n ≠ 0 := fun h0 => h (by rw [h0])
      simp [u64ToOpt, optToU64, hn]

/-- A valid meta is decoded from its encoding. -/
theorem decode_encode {m : Meta} (h : m.Valid) (slot : Nat) : decode m.encode slot = .ok m := by
  have hcount : ¬ m.pageCount < firstDataPage := Nat.not_lt.mpr h.count
  have hhead := u64ToOpt_optToU64 h.head
  have hroot := u64ToOpt_optToU64 h.root
  have hv := h.version
  have hs := h.size
  obtain ⟨v, s, txn, count, head, len, root⟩ := m
  simp only at hv hs hcount hhead hroot
  subst hv hs
  simp [decode, encode, hcount, hhead, hroot]

end Meta

/-! ## Frames -/

/-- What a page holds; the constructor is the page type. -/
inductive Body (α : Type) where
  | metaPage (image : MetaImage)
  | freelist (next : Nat) (ids : List Nat)
  | data (payload : α)
  deriving DecidableEq

/-- A page image that passes its checksum. -/
structure Frame (α : Type) where
  id : Nat
  body : Body α
  deriving DecidableEq

variable {α : Type}

/-- Verify the bytes at a page: matching checksum and matching self-id. -/
def verify (cell : Option (Frame α)) (expected : Nat) : Except PagerError (Frame α) :=
  match cell with
  | none => .error (.corruption (.checksum expected))
  | some f =>
      if f.id = expected then .ok f
      else .error (.corruption (.pageIdMismatch expected f.id))

theorem verify_some {f : Frame α} {id : Nat} (h : f.id = id) : verify (some f) id = .ok f := by
  simp [verify, h]

/-- Free ids a single trunk page can hold. -/
def freelistCapacity : Nat := (pageSize - 28) / 8

example : freelistCapacity = 508 := by decide

end Edb
