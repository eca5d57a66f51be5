import Edb.Catalog.Rows
import Edb.Proto.Codec

/-!
# Results on the wire

A result is encoded field by field, its cells by the value mapping of the type layer: a uuid as
its canonical string, a timestamp as its integer, a json document spliced in as it is stored.
A cell sent back as an insert cell goes through `rowValueFrom`, which knows no schema:
`cell_returns_iff` says which cells come back as what they were.
-/

namespace Edb.Proto

open Edb.Types Edb.Lib

/-! ## Encoding -/

/-- A string or bin longer than a `u32` can count is refused. -/
def sized (len : Nat) (wire : Bytes) : Except TypeError Bytes :=
  if len < 2 ^ 32 then .ok wire else .error (.valueTooLarge len)

/-- The wire form of a value (`types::encode_value`). -/
def encodeValue : Value → Except TypeError Bytes
  | .null => .ok [0xC0]
  | .bool b => .ok [if b then 0xC3 else 0xC2]
  | .i64 v => .ok (writeInt v)
  | .timestamp v => .ok (writeInt v)
  | .f64 v => .ok (0xCB :: beBytes 8 v.bits.toNat)
  | .text s => sized (asBytes s).length (writeStr s)
  | .uuid u => sized (asBytes (uuidToString u)).length (writeStr (uuidToString u))
  | .blob b => sized b.length (writeBin b)
  | .json doc => .ok doc

/-- One query result, ready to encode. -/
structure QueryResult where
  columns : List String
  rows : List (List Value)
  cursor : Option Bytes
  applied : Option Bool
  affected : Option Nat
  deriving DecidableEq, Repr

/-- The cells of a row, one after the other. -/
def encodeRow (row : List Value) : Except TypeError Bytes := do
  let cells ← row.mapM encodeValue
  pure (writeArrayHeader row.length ++ cells.flatten)

def encodeCursor : Option Bytes → Bytes
  | some token => writeBin token
  | none => [0xC0]

def encodeApplied : Option Bool → Bytes
  | some true => [0xC3]
  | some false => [0xC2]
  | none => [0xC0]

def encodeAffected : Option Nat → Bytes
  | some n => writeInt (intFromU64 n)
  | none => [0xC0]

/-- Encode a successful result; absent fields are explicit nulls. -/
def encodeResult (result : QueryResult) : Except TypeError Bytes := do
  let rows ← result.rows.mapM encodeRow
  pure (writeMapHeader 7
    ++ writeStr "v" ++ writeInt protocolVersion
    ++ writeStr "ok" ++ [0xC3]
    ++ writeStr "columns" ++ writeArrayHeader result.columns.length
    ++ result.columns.flatMap writeStr
    ++ writeStr "rows" ++ writeArrayHeader result.rows.length ++ rows.flatten
    ++ writeStr "cursor" ++ encodeCursor result.cursor
    ++ writeStr "applied" ++ encodeApplied result.applied
    ++ writeStr "affected" ++ encodeAffected result.affected)

/-- A cell's wire form stands in the result as `encodeValue` gives it. -/
theorem encodeResult_cell {result : QueryResult} {out : Bytes} (h : encodeResult result = .ok out)
    {row : List Value} (hrow : row ∈ result.rows) {v : Value} (hv : v ∈ row) :
    ∃ wire, encodeValue v = .ok wire ∧ wire <:+: out := by
  have hflat : ∀ {x : Bytes} {l : List Bytes}, x ∈ l → x <:+: l.flatten := by
    intro x l hx
    obtain ⟨a, b, rfl⟩ := List.append_of_mem hx
    exact ⟨a.flatten, b.flatten, by simp⟩
  obtain ⟨rows, hrows, h⟩ := Result.bind_eq_ok.1 h
  cases h
  obtain ⟨encoded, hencoded, henc⟩ := Result.exists_of_mapM hrows hrow
  obtain ⟨cells, hcells, henc⟩ := Result.bind_eq_ok.1 henc
  cases henc
  obtain ⟨wire, hwire, hval⟩ := Result.exists_of_mapM hcells hv
  refine ⟨wire, hval, ?_⟩
  have hcell : wire <:+: writeArrayHeader row.length ++ cells.flatten :=
    (hflat hwire).trans (List.suffix_append _ _).isInfix
  have hall := hcell.trans (hflat hencoded)
  obtain ⟨a, b, hab⟩ := hall
  rw [← hab]
  simp only [List.append_assoc]
  refine ⟨writeMapHeader 7 ++ writeStr "v" ++ writeInt protocolVersion
    ++ writeStr "ok" ++ [0xC3]
    ++ writeStr "columns" ++ writeArrayHeader result.columns.length
    ++ result.columns.flatMap writeStr
    ++ writeStr "rows" ++ writeArrayHeader result.rows.length ++ a,
    b ++ writeStr "cursor" ++ encodeCursor result.cursor
    ++ writeStr "applied" ++ encodeApplied result.applied
    ++ writeStr "affected" ++ encodeAffected result.affected, ?_⟩
  simp only [List.append_assoc]

/-! ## Cells that come back -/

/-- The decoder stopped at one of its limits. -/
def ProtoError.isLimit : ProtoError → Bool
  | .messageTooLarge _ _ => true
  | .tooDeep _ => true
  | .tooManyNodes => true
  | _ => false

/-- An array or a map. -/
def Doc.isContainer : Doc → Bool
  | array _ => true
  | map _ => true
  | _ => false

/-- The kinds that have a wire form of their own; and the json documents that are stored as
the encoder writes an array or a map. -/
def WiresBack : Value → Prop
  | .uuid _ => False
  | .timestamp _ => False
  | .json doc => ∃ d : Doc, d.isContainer = true ∧ d.Accepted .default ∧ encodeDoc d = doc
  | _ => True

/-- A cell within the size limit is passed on as it is. -/
theorem sized_eq_ok {len : Nat} {wire bytes : Bytes} (h : sized len wire = .ok bytes) :
    wire = bytes := by
  rw [sized] at h
  split at h
  · cases h
    rfl
  · cases h

/-- A document without children is within the default limits. -/
theorem accepted_scalar {d : Doc} (h : d.depth = 0 ∧ d.nodes = 1 ∧ d.Keyed) :
    d.Accepted .default := by
  obtain ⟨hdepth, hnodes, hkeyed⟩ := h
  refine ⟨?_, ?_, hkeyed⟩
  · rw [hdepth]
    exact Nat.zero_le _
  · rw [hnodes]
    decide

/-- Such a value goes out as the encoding of a document that is read as the value. -/
theorem WiresBack.doc {v : Value} (h : WiresBack v) {bytes : Bytes}
    (hbytes : encodeValue v = .ok bytes) :
    ∃ d : Doc, d.Accepted .default ∧ encodeDoc d = bytes ∧ rowValueFrom d = v := by
  cases v with
  | null =>
    cases hbytes
    exact ⟨.null, accepted_scalar ⟨rfl, rfl, trivial⟩, rfl, rfl⟩
  | bool b =>
    cases hbytes
    exact ⟨.bool b, accepted_scalar ⟨rfl, rfl, trivial⟩, rfl, rfl⟩
  | i64 v =>
    cases hbytes
    exact ⟨.int v, accepted_scalar ⟨rfl, rfl, trivial⟩, rfl, rfl⟩
  | f64 v =>
    cases hbytes
    exact ⟨.float v, accepted_scalar ⟨rfl, rfl, trivial⟩, rfl, rfl⟩
  | text s =>
    exact ⟨.str s, accepted_scalar ⟨rfl, rfl, trivial⟩, sized_eq_ok hbytes, rfl⟩
  | blob b =>
    exact ⟨.bin b, accepted_scalar ⟨rfl, rfl, trivial⟩, sized_eq_ok hbytes, rfl⟩
  | uuid u => cases h
  | timestamp t => cases h
  | json doc =>
    cases hbytes
    obtain ⟨d, hcontainer, hd, hdoc⟩ := h
    refine ⟨d, hd, hdoc, ?_⟩
    cases d with
    | array items => rw [rowValueFrom, hdoc]
    | map entries => rw [rowValueFrom, hdoc]
    | _ => cases hcontainer

/-- What an insert cell is read as is equal to a value only if that value wires back. -/
theorem WiresBack.of_eqv {d : Doc} {v : Value} (hd : d.Accepted .default)
    (h : (rowValueFrom d).eqv v = true) : WiresBack v := by
  cases v with
  | uuid u => cases d <;> cases h
  | timestamp t => cases d <;> cases h
  | json doc =>
    have hbytes : ∀ {b}, (Value.json b).eqv (.json doc) = true → b = doc := by
      intro b hb
      rw [Value.eqv, beq_iff_eq] at hb
      exact cmpBytes_eq.1 hb
    cases d with
    | array items => exact ⟨.array items, rfl, hd, hbytes h⟩
    | map entries => exact ⟨.map entries, rfl, hd, hbytes h⟩
    | _ => cases h
  | _ => trivial

open Edb.Catalog

/-- A cell a nullable column holds, sent out and back as an insert cell, is accepted by the
column and equal to what it was exactly when its kind is neither `uuid` nor `timestamp` and,
if it is a json document, its bytes are the encoder's own form of an array or a map. -/
theorem cell_returns_iff {table : String} {def_ : TableDef} {ci : Nat} {v : Value}
    {bytes : Bytes} (hv : checkCellType table def_ ci v = .ok ())
    (hbytes : encodeValue v = .ok bytes)
    (hlimits : ∀ e, decodeDoc bytes .default = .error e → e.isLimit = false) :
    (∃ d, decodeDoc bytes .default = .ok d ∧
      checkCellType table def_ ci (rowValueFrom d) = .ok () ∧ (rowValueFrom d).eqv v = true) ↔
    WiresBack v := by
  constructor
  · rintro ⟨d, hd, -, heqv⟩
    exact .of_eqv (decodeDoc_eq_ok hd) heqv
  · intro h
    obtain ⟨d, hd, henc, hback⟩ := h.doc hbytes
    have hlen : (encodeDoc d).length ≤ DecodeLimits.default.maxBytes := by
      by_contra hlong
      have herr := hlimits (.messageTooLarge bytes.length DecodeLimits.default.maxBytes) (by
        rw [decodeDoc, if_pos (by rw [← henc]; omega)])
      cases herr
    have hdecode := decodeDoc_encodeDoc hd.keyed ⟨hlen, hd.depth, hd.nodes⟩ (by decide)
    rw [henc] at hdecode
    refine ⟨d, hdecode, ?_, ?_⟩
    · rw [hback]
      exact hv
    · rw [hback, Value.eqv, Value.logicalCmp_self]
      rfl

/-- A table with one column of a kind beside its key. -/
def cellTable (kind : TypeKind) : TableDef :=
  ⟨"t", [ColumnDef.new "id" .i64, ColumnDef.new "c" kind], ["id"], [], [], []⟩

theorem cell_returns_text :
    checkCellType "t" (cellTable .text) 1 (.text "a") = .ok () ∧
    ∃ d, decodeDoc [0xA1, 0x61] .default = .ok d ∧
      checkCellType "t" (cellTable .text) 1 (rowValueFrom d) = .ok () ∧
      (rowValueFrom d).eqv (.text "a") = true := by
  have hwire : encodeValue (.text "a") = .ok [0xA1, 0x61] := by decide +kernel
  have hdecode : decodeDoc [0xA1, 0x61] .default = .ok (.str "a") := by
    have henc : encodeDoc (.str "a") = [0xA1, 0x61] := by decide +kernel
    rw [← henc]
    exact decodeDoc_encodeDoc trivial ⟨by decide +kernel, by decide, by decide⟩ (by decide)
  refine ⟨by decide, (cell_returns_iff (by decide) hwire ?_).2 trivial⟩
  intro e he
  cases hdecode.symm.trans he

/-- A uuid goes out as a string and comes back as a text, which its column refuses. -/
theorem uuid_cell_is_refused :
    let zero := Value.uuid (Vector.replicate 16 0)
    checkCellType "t" (cellTable .uuid) 1 zero = .ok () ∧
    ∃ bytes d, encodeValue zero = .ok bytes ∧ decodeDoc bytes .default = .ok d ∧
      checkCellType "t" (cellTable .uuid) 1 (rowValueFrom d)
        = .error (.typeMismatch "t" "c" .uuid .text) ∧
      (rowValueFrom d).eqv zero = false := by
  intro zero
  let s := uuidToString (Vector.replicate 16 0)
  have hdecode : decodeDoc (encodeDoc (.str s)) .default = .ok (.str s) :=
    decodeDoc_encodeDoc trivial ⟨by decide +kernel, by decide, by decide⟩ (by decide)
  exact ⟨by decide, encodeDoc (.str s), .str s, by decide +kernel, hdecode, rfl, rfl⟩

end Edb.Proto
