import Mathlib.Tactic.NormNum.Basic
import Edb.Lib.Result
import Edb.Types.Float
import Edb.Types.Key

/-!
# The wire layer

MessagePack bytes against a bounded document tree. Every message is read by `decodeDoc`
first, which enforces the size, depth and node limits before it looks at what the document
means, and refuses the reserved byte, extension types, keys that are not strings, duplicate
keys and trailing bytes.

* **Reading back** (`decodeDoc_of_sized`): a document with distinct keys whose encoding is
  within the limits is read back exactly, floats bit for bit.
* **What is accepted** (`decodeDoc_eq_ok`): a decoded document keeps the limits and has
  distinct keys in every map.
-/

namespace Edb.Proto

open Edb.Types Edb.Lib

/-- Why the protocol layer refuses a message. -/
inductive ProtoError where
  | messageTooLarge (len max : Nat)
  | truncated
  | trailingBytes (count : Nat)
  | tooDeep (max : Nat)
  | tooManyNodes
  | intOutOfRange (found : Nat)
  | invalidUtf8
  | extNotAllowed
  | reservedByte
  | nonStringKey
  | duplicateKey (key : String)
  | unknownNode (context name : String)
  | unknownField (node name : String)
  | missingField (node field : String)
  | wrongShape (node field expected found : String)
  | invalidValue (node field found : String)
  | unsupportedVersion (found : Int64)
  deriving DecidableEq, Repr

abbrev ProtoResult := Except ProtoError

/-- The resource limits of the decoder. -/
structure DecodeLimits where
  maxBytes : Nat
  maxDepth : Nat
  maxNodes : Nat
  deriving DecidableEq, Repr

/-- `DecodeLimits::default()`. -/
def DecodeLimits.default : DecodeLimits := ⟨2 ^ 20, 64, 100000⟩

/-- One MessagePack value. Map entries keep their wire order. -/
inductive Doc where
  | null
  | bool (b : Bool)
  | int (v : Int64)
  | float (v : F64)
  | str (s : String)
  | bin (b : Bytes)
  | array (items : List Doc)
  | map (entries : List (String × Doc))
  deriving Repr

/-- The name of a value's shape, as errors give it. -/
def Doc.shape : Doc → String
  | null => "null"
  | bool _ => "bool"
  | int _ => "int"
  | float _ => "float"
  | str _ => "string"
  | bin _ => "bin"
  | array _ => "array"
  | map _ => "map"

/-! ## Reading -/

/-- What is left of a message and of its node budget. -/
structure Reader where
  rest : Bytes
  nodesLeft : Nat
  maxDepth : Nat
  deriving DecidableEq, Repr

namespace Reader

def take (n : Nat) (r : Reader) : ProtoResult (Bytes × Reader) :=
  if r.rest.length < n then .error .truncated
  else .ok (r.rest.take n, { r with rest := r.rest.drop n })

/-- A big-endian word of `n` bytes (`from_be_bytes(take_array::<n>())`). -/
def takeBe (n : Nat) (r : Reader) : ProtoResult (Nat × Reader) := do
  let (bytes, r) ← r.take n
  pure (Lex.ofDigits 256 (bytes.map UInt8.toNat), r)

def byte (r : Reader) : ProtoResult (UInt8 × Reader) :=
  match r.rest with
  | [] => .error .truncated
  | b :: rest => .ok (b, { r with rest := rest })

/-- Charge one node against the budget. -/
def node (r : Reader) : ProtoResult Reader :=
  if r.nodesLeft = 0 then .error .tooManyNodes
  else .ok { r with nodesLeft := r.nodesLeft - 1 }

/-- A claimed item count against the bytes and the node budget that are left. -/
def checkCount (n : Nat) (r : Reader) : ProtoResult Unit :=
  if r.rest.length < n then .error .truncated
  else if r.nodesLeft < n then .error .tooManyNodes
  else .ok ()

def strBody (len : Nat) (r : Reader) : ProtoResult (String × Reader) := do
  let (bytes, r) ← r.take len
  match fromUtf8 bytes with
  | none => .error .invalidUtf8
  | some s => pure (s, r)

def str (len : Nat) (r : Reader) : ProtoResult (Doc × Reader) := do
  let (s, r) ← r.strBody len
  pure (.str s, r)

def bin (len : Nat) (r : Reader) : ProtoResult (Doc × Reader) := do
  let (bytes, r) ← r.take len
  pure (.bin bytes, r)

/-- A word of `width` bytes, range-checked into `i64`. -/
def unsigned (width : Nat) (r : Reader) : ProtoResult (Doc × Reader) := do
  let (n, r) ← r.takeBe width
  if n < 2 ^ 63 then pure (.int (Int64.ofNat n), r) else .error (.intOutOfRange n)

/-- The two's complement reading of a word of `bits` bits. -/
def ofTwos (bits n : Nat) : Int64 :=
  Int64.ofInt (if n < 2 ^ (bits - 1) then n else (n : Int) - 2 ^ bits)

def signed (width : Nat) (r : Reader) : ProtoResult (Doc × Reader) := do
  let (n, r) ← r.takeBe width
  pure (.int (ofTwos (8 * width) n), r)

/-- A `float32`, widened. -/
def float32 (r : Reader) : ProtoResult (Doc × Reader) := do
  let (n, r) ← r.takeBe 4
  pure (.float (F64.ofF32 n), r)

def float64 (r : Reader) : ProtoResult (Doc × Reader) := do
  let (n, r) ← r.takeBe 8
  pure (.float ⟨UInt64.ofNat n⟩, r)

/-- A length or count of `width` bytes, and what it is the length of. -/
def counted {α : Type} (width : Nat) (body : Nat → Reader → ProtoResult (α × Reader))
    (r : Reader) : ProtoResult (α × Reader) := do
  let (n, r) ← r.takeBe width
  body n r

/-- `array_body`: count first, then each item. -/
def arrayItems (value : Reader → ProtoResult (Doc × Reader)) :
    Nat → Reader → ProtoResult (List Doc × Reader)
  | 0, r => .ok ([], r)
  | n + 1, r => do
    let (d, r) ← value r
    let (ds, r) ← arrayItems value n r
    pure (d :: ds, r)

def arrayBody (value : Reader → ProtoResult (Doc × Reader)) (n : Nat) (r : Reader) :
    ProtoResult (Doc × Reader) := do
  r.checkCount n
  let (items, r) ← arrayItems value n r
  pure (.array items, r)

def keyBody (len : Nat) (r : Reader) : ProtoResult (Option String × Reader) := do
  let (s, r) ← r.strBody len
  pure (some s, r)

/-- What follows the head byte of a map key; none when it is not that of a string. -/
def keyHead (head : UInt8) (r : Reader) : ProtoResult (Option String × Reader) :=
  let h := head.toNat
  if 0xA0 ≤ h ∧ h ≤ 0xBF then r.keyBody (h % 0x20)
  else if h = 0xD9 then r.counted 1 keyBody
  else if h = 0xDA then r.counted 2 keyBody
  else if h = 0xDB then r.counted 4 keyBody
  else .ok (none, r)

/-- Read a value that has to be a string. -/
def valueIsStr (r : Reader) : ProtoResult (Option String × Reader) := do
  let (head, r) ← r.byte
  r.keyHead head

/-- The entries of a map, each key against the ones before it. -/
def mapEntries (value : Reader → ProtoResult (Doc × Reader)) :
    Nat → List (String × Doc) → Reader → ProtoResult (List (String × Doc) × Reader)
  | 0, entries, r => .ok (entries, r)
  | n + 1, entries, r => do
    let r ← r.node
    let (key, r) ← r.valueIsStr
    match key with
    | none => .error .nonStringKey
    | some key =>
      if entries.any (fun e => e.1 = key) then .error (.duplicateKey key)
      else do
        let (v, r) ← value r
        mapEntries value n (entries ++ [(key, v)]) r

/-- An entry is a key node and a value node. -/
def mapBody (value : Reader → ProtoResult (Doc × Reader)) (n : Nat) (r : Reader) :
    ProtoResult (Doc × Reader) := do
  r.checkCount (n * 2)
  let (entries, r) ← mapEntries value n [] r
  pure (.map entries, r)

/-- What follows the head byte of a value; `value` reads a nested one. -/
def body (value : Reader → ProtoResult (Doc × Reader)) (head : UInt8) (r : Reader) :
    ProtoResult (Doc × Reader) :=
  let h := head.toNat
  -- ints, all families
  if h ≤ 0x7F then .ok (.int (Int64.ofNat h), r)
  else if 0xE0 ≤ h then .ok (.int (ofTwos 8 h), r)
  else if h = 0xCC then r.unsigned 1
  else if h = 0xCD then r.unsigned 2
  else if h = 0xCE then r.unsigned 4
  else if h = 0xCF then r.unsigned 8
  else if h = 0xD0 then r.signed 1
  else if h = 0xD1 then r.signed 2
  else if h = 0xD2 then r.signed 4
  else if h = 0xD3 then r.signed 8
  -- other scalars
  else if h = 0xC0 then .ok (.null, r)
  else if h = 0xC2 then .ok (.bool false, r)
  else if h = 0xC3 then .ok (.bool true, r)
  else if h = 0xCA then r.float32
  else if h = 0xCB then r.float64
  -- strings
  else if 0xA0 ≤ h ∧ h ≤ 0xBF then r.str (h % 0x20)
  else if h = 0xD9 then r.counted 1 str
  else if h = 0xDA then r.counted 2 str
  else if h = 0xDB then r.counted 4 str
  -- bins
  else if h = 0xC4 then r.counted 1 bin
  else if h = 0xC5 then r.counted 2 bin
  else if h = 0xC6 then r.counted 4 bin
  -- arrays
  else if 0x90 ≤ h ∧ h ≤ 0x9F then r.arrayBody value (h % 0x10)
  else if h = 0xDC then r.counted 2 (arrayBody value)
  else if h = 0xDD then r.counted 4 (arrayBody value)
  -- maps
  else if 0x80 ≤ h ∧ h ≤ 0x8F then r.mapBody value (h % 0x10)
  else if h = 0xDE then r.counted 2 (mapBody value)
  else if h = 0xDF then r.counted 4 (mapBody value)
  -- extension types are not part of the protocol
  else if (0xC7 ≤ h ∧ h ≤ 0xC9) ∨ (0xD4 ≤ h ∧ h ≤ 0xD8) then .error .extNotAllowed
  else .error .reservedByte

/-- Read one value. The first argument is how many levels, this one included, the depth limit
still allows: `max_depth + 1 - depth`. -/
def value : Nat → Reader → ProtoResult (Doc × Reader)
  | 0, r => .error (.tooDeep r.maxDepth)
  | levels + 1, r => do
    let r ← r.node
    let (head, r) ← r.byte
    r.body (value levels) head

end Reader

/-- Decode exactly one value under `limits`. -/
def decodeDoc (bytes : Bytes) (limits : DecodeLimits) : ProtoResult Doc :=
  if limits.maxBytes < bytes.length then .error (.messageTooLarge bytes.length limits.maxBytes)
  else do
    let (doc, r) ← Reader.value (limits.maxDepth + 1)
      ⟨bytes, limits.maxNodes, limits.maxDepth⟩
    if r.rest.isEmpty then pure doc else .error (.trailingBytes r.rest.length)

/-! ## Writing -/

/-- The `n` big-endian bytes of a word. -/
def beBytes (n v : Nat) : Bytes := (Lex.digits 256 n v).map UInt8.ofNat

/-- The most compact int form. -/
def writeInt (v : Int64) : Bytes :=
  -- the two's complement of a negative one, cut to the width written
  let word (bits : Nat) : Nat := (v.toInt % 2 ^ bits).toNat
  if 0 ≤ v.toInt then
    let n := v.toInt.toNat
    if n ≤ 0x7F then beBytes 1 n
    else if n ≤ 0xFF then 0xCC :: beBytes 1 n
    else if n ≤ 0xFFFF then 0xCD :: beBytes 2 n
    else if n ≤ 0xFFFFFFFF then 0xCE :: beBytes 4 n
    else 0xCF :: beBytes 8 n
  else if -32 ≤ v.toInt then beBytes 1 (word 8)
  else if -128 ≤ v.toInt then 0xD0 :: beBytes 1 (word 8)
  else if -32768 ≤ v.toInt then 0xD1 :: beBytes 2 (word 16)
  else if -2147483648 ≤ v.toInt then 0xD2 :: beBytes 4 (word 32)
  else 0xD3 :: beBytes 8 (word 64)

/-- The head of a string; a length beyond `u32` saturates. -/
def strHeader (n : Nat) : Bytes :=
  if n ≤ 0x1F then beBytes 1 (0xA0 + n)
  else if n ≤ 0xFF then 0xD9 :: beBytes 1 n
  else if n ≤ 0xFFFF then 0xDA :: beBytes 2 n
  else 0xDB :: beBytes 4 (min n 0xFFFFFFFF)

def writeStr (s : String) : Bytes := strHeader (asBytes s).length ++ asBytes s

def binHeader (n : Nat) : Bytes :=
  if n ≤ 0xFF then 0xC4 :: beBytes 1 n
  else if n ≤ 0xFFFF then 0xC5 :: beBytes 2 n
  else 0xC6 :: beBytes 4 (min n 0xFFFFFFFF)

def writeBin (bytes : Bytes) : Bytes := binHeader bytes.length ++ bytes

def writeArrayHeader (n : Nat) : Bytes :=
  if n ≤ 0x0F then beBytes 1 (0x90 + n)
  else if n ≤ 0xFFFF then 0xDC :: beBytes 2 n
  else 0xDD :: beBytes 4 (min n 0xFFFFFFFF)

def writeMapHeader (n : Nat) : Bytes :=
  if n ≤ 0x0F then beBytes 1 (0x80 + n)
  else if n ≤ 0xFFFF then 0xDE :: beBytes 2 n
  else 0xDF :: beBytes 4 (min n 0xFFFFFFFF)

mutual

/-- The bytes a document adds to the output. -/
def writeDoc : Doc → Bytes
  | .null => [0xC0]
  | .bool b => [if b then 0xC3 else 0xC2]
  | .int v => writeInt v
  | .float v => 0xCB :: beBytes 8 v.bits.toNat
  | .str s => writeStr s
  | .bin b => writeBin b
  | .array items => writeArrayHeader items.length ++ writeItems items
  | .map entries => writeMapHeader entries.length ++ writeEntries entries

def writeItems : List Doc → Bytes
  | [] => []
  | item :: items => writeDoc item ++ writeItems items

def writeEntries : List (String × Doc) → Bytes
  | [] => []
  | (key, value) :: entries => writeStr key ++ writeDoc value ++ writeEntries entries

end

/-- Encode a document. -/
def encodeDoc (doc : Doc) : Bytes := writeDoc doc

/-! ## What the limits measure -/

namespace Doc

mutual

/-- The deepest level of a document, its root at level zero. -/
def depth : Doc → Nat
  | array items => depthItems items
  | map entries => depthEntries entries
  | _ => 0

def depthItems : List Doc → Nat
  | [] => 0
  | item :: items => max (depth item + 1) (depthItems items)

def depthEntries : List (String × Doc) → Nat
  | [] => 0
  | (_, value) :: entries => max (depth value + 1) (depthEntries entries)

end

mutual

/-- How many nodes a document has; a key is one. -/
def nodes : Doc → Nat
  | array items => nodesItems items + 1
  | map entries => nodesEntries entries + 1
  | _ => 1

def nodesItems : List Doc → Nat
  | [] => 0
  | item :: items => nodes item + nodesItems items

def nodesEntries : List (String × Doc) → Nat
  | [] => 0
  | (_, value) :: entries => 1 + nodes value + nodesEntries entries

end

mutual

/-- No map of the document has a key twice. -/
def Keyed : Doc → Prop
  | array items => KeyedItems items
  | map entries => (entries.map Prod.fst).Nodup ∧ KeyedEntries entries
  | _ => True

def KeyedItems : List Doc → Prop
  | [] => True
  | item :: items => Keyed item ∧ KeyedItems items

def KeyedEntries : List (String × Doc) → Prop
  | [] => True
  | (_, value) :: entries => Keyed value ∧ KeyedEntries entries

end

mutual

/-- Every length and count of the document fits a `u32`, so that no head saturates. -/
def Sized : Doc → Prop
  | str s => (asBytes s).length < 2 ^ 32
  | bin b => b.length < 2 ^ 32
  | array items => items.length < 2 ^ 32 ∧ SizedItems items
  | map entries => entries.length < 2 ^ 32 ∧ SizedEntries entries
  | _ => True

def SizedItems : List Doc → Prop
  | [] => True
  | item :: items => Sized item ∧ SizedItems items

def SizedEntries : List (String × Doc) → Prop
  | [] => True
  | (key, value) :: entries =>
    (asBytes key).length < 2 ^ 32 ∧ Sized value ∧ SizedEntries entries

end

/-- The encoding of a document is within the limits. -/
structure Within (limits : DecodeLimits) (d : Doc) : Prop where
  bytes : (encodeDoc d).length ≤ limits.maxBytes
  depth : d.depth ≤ limits.maxDepth
  nodes : d.nodes ≤ limits.maxNodes

end Doc

/-! ## Reading a field back -/

theorem length_beBytes (n v : Nat) : (beBytes n v).length = n := by simp [beBytes]

theorem beBytes_one {n : Nat} : beBytes 1 n = [UInt8.ofNat n] := by
  simp [beBytes, Lex.digits]

/-- A word that fits its width is what its bytes denote. -/
theorem ofDigits_beBytes {n v : Nat} (h : v < 256 ^ n) :
    Lex.ofDigits 256 ((beBytes n v).map UInt8.toNat) = v := by
  have hbyte : ∀ d ∈ Lex.digits 256 n v, (UInt8.toNat ∘ UInt8.ofNat) d = d :=
    fun d hd => UInt8.toNat_ofNat_of_lt' (Lex.digits_lt n h d hd)
  rw [beBytes, List.map_map, List.map_congr_left hbyte, List.map_id', Lex.ofDigits_digits n h]

namespace Reader

variable {rest : Bytes} {k m : Nat}

theorem take_append {n : Nat} {head : Bytes} (h : head.length = n) :
    take n ⟨head ++ rest, k, m⟩ = .ok (head, ⟨rest, k, m⟩) := by
  have hshort : ¬ (head ++ rest).length < n := by
    rw [List.length_append, h]
    omega
  simp only [take]
  rw [if_neg hshort, List.take_left' h, List.drop_left' h]

theorem takeBe_append {n v : Nat} (h : v < 256 ^ n) :
    takeBe n ⟨beBytes n v ++ rest, k, m⟩ = .ok (v, ⟨rest, k, m⟩) := by
  rw [takeBe, take_append (length_beBytes n v), Result.ok_bind]
  show Except.ok (Lex.ofDigits 256 ((beBytes n v).map UInt8.toNat), _) = _
  rw [ofDigits_beBytes h]

theorem strBody_append {n : Nat} {s : String} (h : (asBytes s).length = n) :
    strBody n ⟨asBytes s ++ rest, k, m⟩ = .ok (s, ⟨rest, k, m⟩) := by
  rw [strBody, take_append h, Result.ok_bind]
  show (match fromUtf8 (asBytes s) with
    | none => Except.error ProtoError.invalidUtf8
    | some s => pure (s, _)) = _
  rw [fromUtf8_asBytes]
  rfl

theorem counted_append {α : Type} {width n : Nat} (h : n < 256 ^ width)
    (body : Nat → Reader → ProtoResult (α × Reader)) :
    counted width body ⟨beBytes width n ++ rest, k, m⟩ = body n ⟨rest, k, m⟩ := by
  rw [counted, takeBe_append h, Result.ok_bind]

theorem unsigned_append {width n : Nat} (h : n < 256 ^ width) (h63 : n < 2 ^ 63) :
    unsigned width ⟨beBytes width n ++ rest, k, m⟩
      = .ok (.int (Int64.ofNat n), ⟨rest, k, m⟩) := by
  rw [unsigned, takeBe_append h, Result.ok_bind]
  show (if n < 2 ^ 63 then _ else _) = _
  rw [if_pos h63]
  rfl

/-- The two's complement of a negative number, cut to enough bits, is read as the number. -/
theorem ofTwos_mod {bits : Nat} {v : Int64} (hbits : 0 < bits) (hlo : -2 ^ (bits - 1) ≤ v.toInt)
    (hneg : v.toInt < 0) : ofTwos bits (v.toInt % 2 ^ bits).toNat = v := by
  obtain ⟨b, rfl⟩ : ∃ b, bits = b + 1 := ⟨bits - 1, by omega⟩
  have hlo : -2 ^ b ≤ v.toInt := hlo
  have hpow : (2 : Int) ^ (b + 1) = 2 * 2 ^ b := by rw [Int.pow_succ, Int.mul_comm]
  have hmod : v.toInt % 2 ^ (b + 1) = v.toInt + 2 ^ (b + 1) := by
    rw [← Int.add_emod_right]
    exact Int.emod_eq_of_lt (by omega) (by omega)
  have hcast : ((v.toInt % 2 ^ (b + 1)).toNat : Int) = v.toInt + 2 ^ (b + 1) := by
    rw [hmod]
    omega
  have hlarge : ¬ (v.toInt % 2 ^ (b + 1)).toNat < 2 ^ b := by
    have hnat : ((2 ^ b : Nat) : Int) = 2 ^ b := by norm_cast
    omega
  rw [ofTwos, Nat.add_sub_cancel, if_neg hlarge, hcast, Int.add_sub_cancel, Int64.ofInt_toInt]

/-- The two's complement of a number fits the bytes it is cut to. -/
theorem twos_lt (n : Int) (width : Nat) : (n % 2 ^ (8 * width)).toNat < 256 ^ width := by
  have hpos : (0 : Int) < 2 ^ (8 * width) := Int.pow_pos (by decide)
  have hnat : ((256 ^ width : Nat) : Int) = 2 ^ (8 * width) := by
    rw [Int.pow_mul]
    norm_cast
  have := Int.emod_lt_of_pos n hpos
  have := Int.emod_nonneg n (by omega : (2 : Int) ^ (8 * width) ≠ 0)
  omega

theorem signed_append {width : Nat} {v : Int64} (hw : 0 < width)
    (hlo : -2 ^ (8 * width - 1) ≤ v.toInt) (hneg : v.toInt < 0) :
    signed width ⟨beBytes width (v.toInt % 2 ^ (8 * width)).toNat ++ rest, k, m⟩
      = .ok (.int v, ⟨rest, k, m⟩) := by
  rw [signed, takeBe_append (twos_lt v.toInt width), Result.ok_bind]
  show Except.ok (Doc.int (ofTwos (8 * width) (v.toInt % 2 ^ (8 * width)).toNat), _) = _
  rw [ofTwos_mod (by omega) hlo hneg]

/-! ## Reading a value back -/

theorem value_cons {levels : Nat} {head : UInt8} :
    value (levels + 1) ⟨head :: rest, k + 1, m⟩ = body (value levels) head ⟨rest, k, m⟩ := rfl

theorem toNat_ofNat {n : Nat} (h : n < 256) : (UInt8.ofNat n).toNat = n :=
  UInt8.toNat_ofNat_of_lt' h

section Heads

variable {value : Reader → ProtoResult (Doc × Reader)} {r : Reader} {n : Nat}

theorem body_fixint (h : n ≤ 0x7F) :
    body value (UInt8.ofNat n) r = .ok (.int (Int64.ofNat n), r) := by
  rw [body, toNat_ofNat (by omega), if_pos h]

theorem body_negative (h : 0xE0 ≤ n) (h' : n < 256) :
    body value (UInt8.ofNat n) r = .ok (.int (ofTwos 8 n), r) := by
  rw [body, toNat_ofNat h', if_neg (by omega), if_pos h]

theorem body_fixstr (h : n ≤ 0x1F) : body value (UInt8.ofNat (0xA0 + n)) r = r.str n := by
  rw [body, toNat_ofNat (by omega)]
  iterate 15 rw [if_neg (by omega)]
  rw [if_pos (by omega)]
  congr 1
  omega

theorem body_fixarray (h : n ≤ 0x0F) :
    body value (UInt8.ofNat (0x90 + n)) r = r.arrayBody value n := by
  rw [body, toNat_ofNat (by omega)]
  iterate 22 rw [if_neg (by omega)]
  rw [if_pos (by omega)]
  congr 1
  omega

theorem body_fixmap (h : n ≤ 0x0F) :
    body value (UInt8.ofNat (0x80 + n)) r = r.mapBody value n := by
  rw [body, toNat_ofNat (by omega)]
  iterate 25 rw [if_neg (by omega)]
  rw [if_pos (by omega)]
  congr 1
  omega

end Heads

variable {levels : Nat}

/-- An integer is read back from whichever form it is written in. -/
theorem value_int (v : Int64) :
    value (levels + 1) ⟨writeInt v ++ rest, k + 1, m⟩ = .ok (.int v, ⟨rest, k, m⟩) := by
  have hlt := v.toInt_lt
  have hle := v.le_toInt
  simp only [writeInt]
  by_cases hpos : 0 ≤ v.toInt
  · have hv : Int64.ofNat v.toInt.toNat = v := by
      rw [← Int64.ofInt_eq_ofNat, Int.toNat_of_nonneg hpos, Int64.ofInt_toInt]
    -- a non-negative one: one byte, or the unsigned width that fits
    have h63 : v.toInt.toNat < 2 ^ 63 := by omega
    rw [if_pos hpos]
    split
    · next h =>
      rw [beBytes_one, List.singleton_append, value_cons, body_fixint h, hv]
    all_goals
      try split
    all_goals
      try split
    all_goals
      try split
    all_goals
      rw [List.cons_append, value_cons]
      refine Eq.trans (unsigned_append ?_ h63) (by rw [hv])
      omega
  · rw [if_neg hpos]
    -- a negative one: one byte, or the signed width that fits
    have hneg : v.toInt < 0 := by omega
    split
    · next h =>
      have hword : (v.toInt % 2 ^ 8).toNat = (v.toInt + 256).toNat := by omega
      rw [beBytes_one, List.singleton_append, value_cons,
        body_negative (by omega) (by omega), ofTwos_mod (by decide) (by omega) hneg]
    all_goals
      try split
    all_goals
      try split
    all_goals
      try split
    all_goals
      rw [List.cons_append, value_cons]
      refine signed_append ?_ ?_ hneg
    all_goals omega

/-- A float is read back bit by bit. -/
theorem value_float (v : F64) :
    value (levels + 1) ⟨0xCB :: beBytes 8 v.bits.toNat ++ rest, k + 1, m⟩
      = .ok (.float v, ⟨rest, k, m⟩) := by
  rw [List.cons_append, value_cons]
  show float64 _ = _
  rw [float64, takeBe_append v.bits.toNat_lt, Result.ok_bind]
  show Except.ok (Doc.float ⟨UInt64.ofNat v.bits.toNat⟩, _) = _
  rw [UInt64.ofNat_toNat]

theorem str_append {n : Nat} {s : String} (h : (asBytes s).length = n) :
    str n ⟨asBytes s ++ rest, k, m⟩ = .ok (.str s, ⟨rest, k, m⟩) := by
  rw [str, strBody_append h]
  rfl

/-- A string is read back from its header and its bytes. -/
theorem value_str {s : String} (h : (asBytes s).length < 2 ^ 32) :
    value (levels + 1) ⟨writeStr s ++ rest, k + 1, m⟩ = .ok (.str s, ⟨rest, k, m⟩) := by
  rw [writeStr, strHeader, List.append_assoc]
  split
  · next hn =>
    rw [beBytes_one, List.singleton_append, value_cons, body_fixstr hn, str_append rfl]
  all_goals
    try split
  all_goals
    try split
  all_goals
    rw [List.cons_append, value_cons]
    refine Eq.trans (counted_append ?_ str) (str_append ?_)
  all_goals omega

theorem valueIsStr_cons {head : UInt8} :
    valueIsStr ⟨head :: rest, k, m⟩ = keyHead head ⟨rest, k, m⟩ := rfl

/-- A key is read back as the string it was written from. -/
theorem valueIsStr_writeStr {s : String} (h : (asBytes s).length < 2 ^ 32) :
    valueIsStr ⟨writeStr s ++ rest, k, m⟩ = .ok (some s, ⟨rest, k, m⟩) := by
  have hkey : ∀ n, (asBytes s).length = n →
      keyBody n ⟨asBytes s ++ rest, k, m⟩ = .ok (some s, ⟨rest, k, m⟩) := by
    intro n hn
    rw [keyBody, strBody_append hn]
    rfl
  rw [writeStr, strHeader, List.append_assoc]
  split
  · next hn =>
    rw [beBytes_one, List.singleton_append, valueIsStr_cons, keyHead, toNat_ofNat (by omega),
      if_pos (by omega)]
    exact hkey _ (by omega)
  all_goals
    try split
  all_goals
    try split
  all_goals
    rw [List.cons_append, valueIsStr_cons]
    refine Eq.trans (counted_append ?_ keyBody) (hkey _ ?_)
  all_goals omega

/-- A binary is read back from its header and its bytes. -/
theorem value_bin {b : Bytes} (h : b.length < 2 ^ 32) :
    value (levels + 1) ⟨writeBin b ++ rest, k + 1, m⟩ = .ok (.bin b, ⟨rest, k, m⟩) := by
  have hbin : ∀ n, b.length = n → bin n ⟨b ++ rest, k, m⟩ = .ok (.bin b, ⟨rest, k, m⟩) := by
    intro n hn
    rw [bin, take_append hn]
    rfl
  rw [writeBin, binHeader, List.append_assoc]
  split
  all_goals
    try split
  all_goals
    rw [List.cons_append, value_cons]
    refine Eq.trans (counted_append ?_ bin) (hbin _ ?_)
  all_goals omega

/-- An array whose items are read is read, if its count fits what is left. -/
theorem arrayBody_of_items {n : Nat} {r r' : Reader} {items : List Doc}
    {value : Reader → ProtoResult (Doc × Reader)} (hrest : n ≤ r.rest.length)
    (hnodes : n ≤ r.nodesLeft) (h : arrayItems value n r = .ok (items, r')) :
    arrayBody value n r = .ok (.array items, r') := by
  rw [arrayBody, checkCount, if_neg (by omega), if_neg (by omega), Result.ok_bind, h]
  rfl

/-- A map whose entries are read is read, if its count fits what is left. -/
theorem mapBody_of_entries {n : Nat} {r r' : Reader} {entries : List (String × Doc)}
    {value : Reader → ProtoResult (Doc × Reader)} (hrest : n * 2 ≤ r.rest.length)
    (hnodes : n * 2 ≤ r.nodesLeft) (h : mapEntries value n [] r = .ok (entries, r')) :
    mapBody value n r = .ok (.map entries, r') := by
  rw [mapBody, checkCount, if_neg (by omega), if_neg (by omega), Result.ok_bind, h]
  rfl

/-- An array is read back once its items are. -/
theorem value_array {items : List Doc} {k' : Nat} (hlen : items.length < 2 ^ 32)
    (hrest : items.length ≤ (writeItems items).length) (hnodes : items.length ≤ k)
    (h : arrayItems (value levels) items.length ⟨writeItems items ++ rest, k, m⟩
      = .ok (items, ⟨rest, k', m⟩)) :
    value (levels + 1) ⟨writeDoc (.array items) ++ rest, k + 1, m⟩
      = .ok (.array items, ⟨rest, k', m⟩) := by
  have hbody : ∀ n, items.length = n →
      arrayBody (value levels) n ⟨writeItems items ++ rest, k, m⟩
        = .ok (.array items, ⟨rest, k', m⟩) := by
    rintro n rfl
    apply arrayBody_of_items _ hnodes h
    simp only [List.length_append]
    omega
  rw [writeDoc, writeArrayHeader, List.append_assoc]
  split
  · next hn =>
    rw [beBytes_one, List.singleton_append, value_cons, body_fixarray hn, hbody _ rfl]
  all_goals
    try split
  all_goals
    rw [List.cons_append, value_cons]
    refine Eq.trans (counted_append ?_ (arrayBody (value levels))) (hbody _ ?_)
  all_goals omega

/-- A map is read back once its entries are. -/
theorem value_map {entries : List (String × Doc)} {k' : Nat} (hlen : entries.length < 2 ^ 32)
    (hrest : entries.length * 2 ≤ (writeEntries entries).length)
    (hnodes : entries.length * 2 ≤ k)
    (h : mapEntries (value levels) entries.length [] ⟨writeEntries entries ++ rest, k, m⟩
      = .ok (entries, ⟨rest, k', m⟩)) :
    value (levels + 1) ⟨writeDoc (.map entries) ++ rest, k + 1, m⟩
      = .ok (.map entries, ⟨rest, k', m⟩) := by
  have hbody : ∀ n, entries.length = n →
      mapBody (value levels) n ⟨writeEntries entries ++ rest, k, m⟩
        = .ok (.map entries, ⟨rest, k', m⟩) := by
    rintro n rfl
    apply mapBody_of_entries _ hnodes h
    simp only [List.length_append]
    omega
  rw [writeDoc, writeMapHeader, List.append_assoc]
  split
  · next hn =>
    rw [beBytes_one, List.singleton_append, value_cons, body_fixmap hn, hbody _ rfl]
  all_goals
    try split
  all_goals
    rw [List.cons_append, value_cons]
    refine Eq.trans (counted_append ?_ (mapBody (value levels))) (hbody _ ?_)
  all_goals omega

/-! ## Reading a document back -/

theorem writeStr_length (s : String) : 1 + (asBytes s).length ≤ (writeStr s).length := by
  rw [writeStr, strHeader, List.length_append]
  split
  all_goals
    try split
  all_goals
    try split
  all_goals
    simp only [List.length_cons, length_beBytes]
    omega

/-- Every document takes at least its head byte. -/
theorem writeDoc_pos (d : Doc) : 0 < (writeDoc d).length := by
  cases d with
  | null => decide
  | bool b => rw [writeDoc, List.length_singleton]; decide
  | int v =>
    rw [writeDoc]
    simp only [writeInt]
    repeat' split
    all_goals
      simp only [List.length_cons, length_beBytes]
      omega
  | float v => simp [writeDoc]
  | str s =>
    have := writeStr_length s
    rw [writeDoc]
    omega
  | bin b =>
    rw [writeDoc, writeBin, binHeader]
    repeat' split
    all_goals simp
  | array items =>
    rw [writeDoc, writeArrayHeader]
    repeat' split
    all_goals
      simp only [List.length_cons, List.length_append, length_beBytes]
      omega
  | map entries =>
    rw [writeDoc, writeMapHeader]
    repeat' split
    all_goals
      simp only [List.length_cons, List.length_append, length_beBytes]
      omega

end Reader

namespace Doc

/-- An item is shallower than the array it is in. -/
theorem depth_lt_items {items : List Doc} {d : Doc} (h : d ∈ items) :
    d.depth < depthItems items := by
  induction items with
  | nil => cases h
  | cons item items ih =>
    rw [depthItems]
    rcases List.mem_cons.1 h with rfl | h
    · omega
    · have := ih h
      omega

/-- A value is shallower than the map it is in. -/
theorem depth_lt_entries {entries : List (String × Doc)} {e : String × Doc} (h : e ∈ entries) :
    e.2.depth < depthEntries entries := by
  induction entries with
  | nil => cases h
  | cons entry entries ih =>
    rw [depthEntries]
    rcases List.mem_cons.1 h with rfl | h
    · omega
    · have := ih h
      omega

theorem depthEntries_append (entries : List (String × Doc)) (key : String) (d : Doc) :
    depthEntries (entries ++ [(key, d)]) = max (depthEntries entries) (d.depth + 1) := by
  induction entries with
  | nil => simp [depthEntries]
  | cons e entries ih =>
    rw [List.cons_append, depthEntries, depthEntries, ih]
    omega

theorem nodesEntries_append (entries : List (String × Doc)) (key : String) (d : Doc) :
    nodesEntries (entries ++ [(key, d)]) = nodesEntries entries + (d.nodes + 1) := by
  induction entries with
  | nil =>
    simp only [List.nil_append, nodesEntries]
    omega
  | cons e entries ih =>
    rw [List.cons_append, nodesEntries, nodesEntries, ih]
    omega

theorem keyedItems_iff {items : List Doc} : KeyedItems items ↔ ∀ d ∈ items, d.Keyed := by
  induction items with
  | nil => simp [KeyedItems]
  | cons item items ih => simp [KeyedItems, ih]

theorem keyedEntries_iff {entries : List (String × Doc)} :
    KeyedEntries entries ↔ ∀ e ∈ entries, e.2.Keyed := by
  induction entries with
  | nil => simp [KeyedEntries]
  | cons entry entries ih => simp [KeyedEntries, ih]

theorem sizedItems_iff {items : List Doc} : SizedItems items ↔ ∀ d ∈ items, d.Sized := by
  induction items with
  | nil => simp [SizedItems]
  | cons item items ih => simp [SizedItems, ih]

theorem sizedEntries_iff {entries : List (String × Doc)} :
    SizedEntries entries ↔ ∀ e ∈ entries, (asBytes e.1).length < 2 ^ 32 ∧ e.2.Sized := by
  induction entries with
  | nil => simp [SizedEntries]
  | cons entry entries ih => simp [SizedEntries, ih, and_assoc]

theorem nodes_pos (d : Doc) : 0 < d.nodes := by
  cases d <;> simp [nodes]

/-- An item has no more nodes than the array it is in. -/
theorem nodes_le_items {items : List Doc} {d : Doc} (h : d ∈ items) :
    d.nodes ≤ nodesItems items := by
  induction items with
  | nil => cases h
  | cons item items ih =>
    rw [nodesItems]
    rcases List.mem_cons.1 h with rfl | h
    · omega
    · have := ih h
      omega

/-- A value has no more nodes than the map it is in. -/
theorem nodes_le_entries {entries : List (String × Doc)} {e : String × Doc} (h : e ∈ entries) :
    e.2.nodes ≤ nodesEntries entries := by
  induction entries with
  | nil => cases h
  | cons entry entries ih =>
    rw [nodesEntries]
    rcases List.mem_cons.1 h with rfl | h
    · omega
    · have := ih h
      omega

theorem length_le_nodesItems (items : List Doc) : items.length ≤ nodesItems items := by
  induction items with
  | nil => exact Nat.le_refl 0
  | cons item items ih =>
    have := item.nodes_pos
    rw [nodesItems, List.length_cons]
    omega

theorem length_le_nodesEntries (entries : List (String × Doc)) :
    entries.length * 2 ≤ nodesEntries entries := by
  induction entries with
  | nil => exact Nat.le_refl 0
  | cons entry entries ih =>
    have := entry.2.nodes_pos
    rw [nodesEntries, List.length_cons]
    omega

theorem length_le_writeItems (items : List Doc) :
    items.length ≤ (writeItems items).length := by
  induction items with
  | nil => exact Nat.le_refl 0
  | cons item items ih =>
    have := Reader.writeDoc_pos item
    rw [writeItems, List.length_cons, List.length_append]
    omega

theorem length_le_writeEntries (entries : List (String × Doc)) :
    entries.length * 2 ≤ (writeEntries entries).length := by
  induction entries with
  | nil => exact Nat.le_refl 0
  | cons entry entries ih =>
    have := Reader.writeDoc_pos entry.2
    have := Reader.writeStr_length entry.1
    rw [writeEntries, List.length_cons, List.length_append, List.length_append]
    omega

/-- An item is written no longer than the array it is in. -/
theorem writeDoc_le_items {items : List Doc} {d : Doc} (h : d ∈ items) :
    (writeDoc d).length ≤ (writeItems items).length := by
  induction items with
  | nil => cases h
  | cons item items ih =>
    rw [writeItems, List.length_append]
    rcases List.mem_cons.1 h with rfl | h
    · omega
    · have := ih h
      omega

/-- A key and its value are written no longer than the map they are in. -/
theorem writeDoc_le_entries {entries : List (String × Doc)} {e : String × Doc}
    (h : e ∈ entries) :
    (asBytes e.1).length + (writeDoc e.2).length ≤ (writeEntries entries).length := by
  induction entries with
  | nil => cases h
  | cons entry entries ih =>
    rw [writeEntries, List.length_append, List.length_append]
    rcases List.mem_cons.1 h with rfl | h
    · have := Reader.writeStr_length e.1
      omega
    · have := ih h
      omega

end Doc

namespace Reader

/-- `value` reads `d` back, whatever follows it, when the budget has room for its nodes. -/
def ReadsBack (value : Reader → ProtoResult (Doc × Reader)) (d : Doc) : Prop :=
  ∀ rest k m, d.nodes ≤ k →
    value ⟨writeDoc d ++ rest, k, m⟩ = .ok (d, ⟨rest, k - d.nodes, m⟩)

variable {value : Reader → ProtoResult (Doc × Reader)} {k m : Nat} {rest : Bytes}

/-- Items that read back one by one read back in a row. -/
theorem arrayItems_writeItems {items : List Doc} (h : ∀ d ∈ items, ReadsBack value d)
    (hk : Doc.nodesItems items ≤ k) :
    arrayItems value items.length ⟨writeItems items ++ rest, k, m⟩
      = .ok (items, ⟨rest, k - Doc.nodesItems items, m⟩) := by
  induction items generalizing k with
  | nil => rfl
  | cons item items ih =>
    rw [Doc.nodesItems] at hk
    have hitem := h item (by simp) (writeItems items ++ rest) k m (by omega)
    have hitems := ih (fun d hd => h d (List.mem_cons_of_mem _ hd))
      (k := k - item.nodes) (by omega)
    rw [writeItems, List.append_assoc, List.length_cons, arrayItems, hitem, Result.ok_bind]
    show (arrayItems value items.length _ >>= _) = _
    rw [hitems, Result.ok_bind, Doc.nodesItems, Nat.sub_sub]
    rfl

/-- Entries that read back one by one read back in a row, behind the keys seen already. -/
theorem mapEntries_writeEntries {seen entries : List (String × Doc)}
    (h : ∀ e ∈ entries, (asBytes e.1).length < 2 ^ 32 ∧ ReadsBack value e.2)
    (hkeys : ((seen ++ entries).map Prod.fst).Nodup) (hk : Doc.nodesEntries entries ≤ k) :
    mapEntries value entries.length seen ⟨writeEntries entries ++ rest, k, m⟩
      = .ok (seen ++ entries, ⟨rest, k - Doc.nodesEntries entries, m⟩) := by
  induction entries generalizing k seen with
  | nil =>
    rw [List.append_nil]
    rfl
  | cons entry entries ih =>
    obtain ⟨key, d⟩ := entry
    rw [Doc.nodesEntries] at hk
    obtain ⟨hlen, hd⟩ : (asBytes key).length < 2 ^ 32 ∧ ReadsBack value d := h (key, d) (by simp)
    have hvalue := hd (writeEntries entries ++ rest) (k - 1) m (by omega)
    -- the key is new, so the reader does not reject it as a duplicate
    have hnew : ¬ seen.any (fun e => e.1 = key) = true := by
      rw [List.map_append, List.map_cons] at hkeys
      have hdisj := (List.nodup_append.1 hkeys).2.2
      intro hany
      obtain ⟨e, he, heq⟩ := List.any_eq_true.1 hany
      exact hdisj e.1 (List.mem_map_of_mem he) key (by simp) (of_decide_eq_true heq)
    have hkeys' : ((seen ++ [(key, d)] ++ entries).map Prod.fst).Nodup := by
      rw [List.append_assoc]
      exact hkeys
    have hentries := ih (fun e he => h e (List.mem_cons_of_mem _ he)) hkeys'
      (show Doc.nodesEntries entries ≤ k - 1 - d.nodes by omega)
    have hnode : node ⟨writeStr key ++ (writeDoc d ++ (writeEntries entries ++ rest)), k, m⟩
        = .ok ⟨writeStr key ++ (writeDoc d ++ (writeEntries entries ++ rest)), k - 1, m⟩ := by
      rw [node, if_neg]
      show ¬ k = 0
      omega
    rw [writeEntries, List.append_assoc, List.append_assoc, List.length_cons, mapEntries, hnode,
      Result.ok_bind, valueIsStr_writeStr hlen, Result.ok_bind]
    show (if seen.any (fun e => e.1 = key) = true then _ else _) = _
    rw [if_neg hnew, hvalue, Result.ok_bind]
    show mapEntries value entries.length _ _ = _
    rw [hentries, List.append_assoc, Doc.nodesEntries]
    congr 3
    omega

/-- The induction is on the levels the limit allows; items and entries are one level down. -/
theorem value_writeDoc {levels : Nat} {d : Doc} (hdepth : d.depth < levels) (hkeyed : d.Keyed)
    (hsized : d.Sized) : ReadsBack (Reader.value levels) d := by
  induction levels generalizing d with
  | zero => cases hdepth
  | succ levels ih =>
    intro rest k m hk
    have hpos := d.nodes_pos
    obtain ⟨k, rfl⟩ : ∃ j, k = j + 1 := ⟨k - 1, by omega⟩
    cases d with
    | null => rfl
    | bool b => cases b <;> rfl
    | int v => exact value_int v
    | float v => exact value_float v
    | str s => exact value_str hsized
    | bin b => exact value_bin hsized
    | array items =>
      obtain ⟨hlen, hsized⟩ := hsized
      rw [Doc.sizedItems_iff] at hsized
      rw [Doc.depth] at hdepth
      rw [Doc.Keyed, Doc.keyedItems_iff] at hkeyed
      rw [Doc.nodes] at hk
      -- the reader rejects a count beyond the bytes or nodes left: neither is short here
      have hcount := Doc.length_le_writeItems items
      have hnodes := Doc.length_le_nodesItems items
      rw [Doc.nodes, Nat.add_sub_add_right]
      apply value_array hlen hcount (by omega)
      apply arrayItems_writeItems _ (by omega)
      intro d hd
      have := Doc.depth_lt_items hd
      exact ih (by omega) (hkeyed d hd) (hsized d hd)
    | map entries =>
      obtain ⟨hlen, hsized⟩ := hsized
      rw [Doc.sizedEntries_iff] at hsized
      rw [Doc.depth] at hdepth
      rw [Doc.Keyed, Doc.keyedEntries_iff] at hkeyed
      rw [Doc.nodes] at hk
      have hcount := Doc.length_le_writeEntries entries
      have hnodes := Doc.length_le_nodesEntries entries
      rw [Doc.nodes, Nat.add_sub_add_right]
      apply value_map hlen hcount (by omega)
      have hback : ∀ e ∈ entries,
          (asBytes e.1).length < 2 ^ 32 ∧ ReadsBack (Reader.value levels) e.2 := by
        intro e he
        have := Doc.depth_lt_entries he
        obtain ⟨hkey, hvalue⟩ := hsized e he
        exact ⟨hkey, ih (by omega) (hkeyed.2 e he) hvalue⟩
      have hkeys : (([] ++ entries).map Prod.fst).Nodup := hkeyed.1
      exact mapEntries_writeEntries hback hkeys (by omega)

end Reader

/-- A document whose encoding is shorter than `2 ^ 32` has no longer part. -/
theorem Doc.sized_of_length {d : Doc} (h : (writeDoc d).length < 2 ^ 32) : d.Sized := by
  have hall : ∀ n, ∀ d : Doc, d.depth < n → (writeDoc d).length < 2 ^ 32 → d.Sized := by
    -- the items are of another type, so the induction is on a bound of the depth
    intro n
    induction n with
    | zero =>
      intro d hd
      cases hd
    | succ n ih =>
      intro d hdepth hlen
      cases d with
      | str s =>
        have := Reader.writeStr_length s
        rw [writeDoc] at hlen
        show (asBytes s).length < 2 ^ 32
        omega
      | bin b =>
        rw [writeDoc, writeBin, List.length_append] at hlen
        show b.length < 2 ^ 32
        omega
      | array items =>
        rw [writeDoc, List.length_append] at hlen
        rw [depth] at hdepth
        have hcount := length_le_writeItems items
        refine ⟨by omega, sizedItems_iff.2 ?_⟩
        intro d hd
        have := depth_lt_items hd
        have := writeDoc_le_items hd
        exact ih d (by omega) (by omega)
      | map entries =>
        rw [writeDoc, List.length_append] at hlen
        rw [depth] at hdepth
        have hcount := length_le_writeEntries entries
        refine ⟨by omega, sizedEntries_iff.2 ?_⟩
        intro e he
        have := depth_lt_entries he
        have := writeDoc_le_entries he
        exact ⟨by omega, ih e.2 (by omega) (by omega)⟩
      | _ => exact trivial
  exact hall (d.depth + 1) d (Nat.lt_succ_self _) h

/-- A document with distinct keys whose encoding is within the limits is read back exactly. -/
theorem decodeDoc_of_sized {d : Doc} {limits : DecodeLimits} (hsized : d.Sized)
    (hkeyed : d.Keyed) (hd : d.Within limits) : decodeDoc (encodeDoc d) limits = .ok d := by
  have hbytes := hd.bytes
  have hdepth := hd.depth
  have hback : Reader.ReadsBack (Reader.value (limits.maxDepth + 1)) d :=
    Reader.value_writeDoc (by omega) hkeyed hsized
  have hread := hback [] limits.maxNodes limits.maxDepth hd.nodes
  rw [List.append_nil] at hread
  rw [decodeDoc, if_neg (by omega), encodeDoc, hread]
  rfl

/-- A document within the limits that has no key twice is decoded from its encoding. -/
theorem decodeDoc_encodeDoc {d : Doc} {limits : DecodeLimits} (hkeyed : d.Keyed)
    (hd : d.Within limits) (hmax : limits.maxBytes < 2 ^ 32) :
    decodeDoc (encodeDoc d) limits = .ok d := by
  have hbytes := hd.bytes
  exact decodeDoc_of_sized
    (Doc.sized_of_length (show (encodeDoc d).length < 2 ^ 32 by omega)) hkeyed hd

/-! ## What is accepted -/

/-- What the decoder guarantees of a document it returns. -/
structure Doc.Accepted (limits : DecodeLimits) (d : Doc) : Prop where
  depth : d.depth ≤ limits.maxDepth
  nodes : d.nodes ≤ limits.maxNodes
  keyed : d.Keyed

namespace Doc.Accepted

variable {limits : DecodeLimits}

theorem item {items : List Doc} (h : (array items).Accepted limits) {d : Doc} (hd : d ∈ items) :
    d.Accepted limits := by
  have hdepth : depthItems items ≤ limits.maxDepth := h.depth
  have hnodes : nodesItems items + 1 ≤ limits.maxNodes := h.nodes
  have := depth_lt_items hd
  have := nodes_le_items hd
  exact ⟨by omega, by omega, keyedItems_iff.1 h.keyed d hd⟩

theorem entry {entries : List (String × Doc)} (h : (map entries).Accepted limits)
    {e : String × Doc} (he : e ∈ entries) : e.2.Accepted limits := by
  have hdepth : depthEntries entries ≤ limits.maxDepth := h.depth
  have hnodes : nodesEntries entries + 1 ≤ limits.maxNodes := h.nodes
  have := depth_lt_entries he
  have := nodes_le_entries he
  exact ⟨by omega, by omega, keyedEntries_iff.1 h.keyed.2 e he⟩

end Doc.Accepted

namespace Reader

/-- What a value read with `levels` levels and `budget` nodes left is: it keeps the depth, its
nodes are charged to the budget and no key is repeated. -/
structure Charged (levels budget : Nat) (p : Doc × Reader) : Prop where
  depth : p.1.depth < levels
  nodes : p.1.nodes + p.2.nodesLeft = budget
  keyed : p.1.Keyed

/-- Every value the computation returns is charged. -/
abbrev Charges (levels budget : Nat) : ProtoResult (Doc × Reader) → Prop :=
  Result.Holds (fun _ => True) (Charged levels budget)

/-- The reader moves on without charging a node. -/
abbrev Free {α : Type} (r : Reader) : ProtoResult (α × Reader) → Prop :=
  Result.Holds (fun _ => True) (fun p => p.2.nodesLeft = r.nodesLeft)

theorem take_free (n : Nat) (r : Reader) : Free r (r.take n) := by
  rw [take]
  split
  · trivial
  · exact rfl

theorem takeBe_free (n : Nat) (r : Reader) : Free r (r.takeBe n) := by
  apply Result.Holds.bind (take_free n r)
  intro p hp
  exact hp

theorem byte_free (r : Reader) : Free r r.byte := by
  rw [byte]
  split
  · trivial
  · exact rfl

theorem strBody_free (n : Nat) (r : Reader) : Free r (r.strBody n) := by
  apply Result.Holds.bind (take_free n r)
  intro p hp
  dsimp only
  split
  · trivial
  · exact hp

theorem counted_holds {α : Type} {width : Nat} {body : Nat → Reader → ProtoResult (α × Reader)}
    {r : Reader} {P : α × Reader → Prop}
    (h : ∀ n r', r'.nodesLeft = r.nodesLeft → Result.Holds (fun _ => True) P (body n r')) :
    Result.Holds (fun _ => True) P (r.counted width body) := by
  apply Result.Holds.bind (takeBe_free width r)
  intro p hp
  exact h p.1 p.2 hp

theorem keyBody_free (n : Nat) (r : Reader) : Free r (r.keyBody n) := by
  apply Result.Holds.bind (strBody_free n r)
  intro p hp
  exact hp

theorem valueIsStr_free (r : Reader) : Free r r.valueIsStr := by
  have hkey : ∀ n r', r'.nodesLeft = r.nodesLeft → Free r (keyBody n r') := by
    intro n r' hr
    have h := keyBody_free n r'
    rwa [Free, hr] at h
  apply Result.Holds.bind (byte_free r)
  intro p hp
  show Free r (keyHead p.1 p.2)
  rw [keyHead]
  split
  · exact hkey _ _ hp
  · split
    · exact counted_holds (fun n r' hr => hkey n r' (hr.trans hp))
    · split
      · exact counted_holds (fun n r' hr => hkey n r' (hr.trans hp))
      · split
        · exact counted_holds (fun n r' hr => hkey n r' (hr.trans hp))
        · exact hp

variable {levels : Nat}

/-- A scalar that takes no node beyond its own. -/
theorem Charged.leaf {d : Doc} {r r' : Reader} (hd : d.depth = 0 ∧ d.nodes = 1 ∧ d.Keyed)
    (hr : r'.nodesLeft = r.nodesLeft) : Charged (levels + 1) (r.nodesLeft + 1) (d, r') := by
  constructor
  · show d.depth < levels + 1
    omega
  · show d.nodes + r'.nodesLeft = r.nodesLeft + 1
    omega
  · exact hd.2.2

theorem unsigned_charges (width : Nat) (r : Reader) :
    Charges (levels + 1) (r.nodesLeft + 1) (r.unsigned width) := by
  apply Result.Holds.bind (takeBe_free width r)
  intro p hp
  dsimp only
  split
  · exact Charged.leaf (by simp [Doc.depth, Doc.nodes, Doc.Keyed]) hp
  · trivial

theorem signed_charges (width : Nat) (r : Reader) :
    Charges (levels + 1) (r.nodesLeft + 1) (r.signed width) := by
  apply Result.Holds.bind (takeBe_free width r)
  intro p hp
  exact Charged.leaf (by simp [Doc.depth, Doc.nodes, Doc.Keyed]) hp

theorem float32_charges (r : Reader) : Charges (levels + 1) (r.nodesLeft + 1) r.float32 := by
  apply Result.Holds.bind (takeBe_free 4 r)
  intro p hp
  exact Charged.leaf (by simp [Doc.depth, Doc.nodes, Doc.Keyed]) hp

theorem float64_charges (r : Reader) : Charges (levels + 1) (r.nodesLeft + 1) r.float64 := by
  apply Result.Holds.bind (takeBe_free 8 r)
  intro p hp
  exact Charged.leaf (by simp [Doc.depth, Doc.nodes, Doc.Keyed]) hp

theorem str_charges (n : Nat) (r : Reader) :
    Charges (levels + 1) (r.nodesLeft + 1) (r.str n) := by
  apply Result.Holds.bind (strBody_free n r)
  intro p hp
  exact Charged.leaf (by simp [Doc.depth, Doc.nodes, Doc.Keyed]) hp

theorem bin_charges (n : Nat) (r : Reader) :
    Charges (levels + 1) (r.nodesLeft + 1) (r.bin n) := by
  apply Result.Holds.bind (take_free n r)
  intro p hp
  exact Charged.leaf (by simp [Doc.depth, Doc.nodes, Doc.Keyed]) hp

section Nested

variable {value : Reader → ProtoResult (Doc × Reader)}

/-- The items of an array pay for themselves, one level deeper. -/
theorem arrayItems_charges (h : ∀ r, Charges levels r.nodesLeft (value r)) (n : Nat) (r : Reader) :
    Result.Holds (fun _ => True)
      (fun p => Doc.depthItems p.1 < levels + 1 ∧ Doc.KeyedItems p.1 ∧
        Doc.nodesItems p.1 + p.2.nodesLeft = r.nodesLeft) (arrayItems value n r) := by
  induction n generalizing r with
  | zero =>
    refine ⟨Nat.succ_pos levels, trivial, ?_⟩
    show 0 + r.nodesLeft = r.nodesLeft
    omega
  | succ n ih =>
    apply Result.Holds.bind (h r)
    intro p hp
    apply Result.Holds.bind (ih p.2)
    intro q hq
    have hdepth := hp.depth
    have hnodes := hp.nodes
    obtain ⟨hqdepth, hqkeyed, hqnodes⟩ := hq
    refine ⟨?_, ⟨hp.keyed, hqkeyed⟩, ?_⟩
    · show max (p.1.depth + 1) (Doc.depthItems q.1) < levels + 1
      omega
    · show p.1.nodes + Doc.nodesItems q.1 + q.2.nodesLeft = r.nodesLeft
      omega

/-- An array pays one node for itself and the nodes of its items. -/
theorem arrayBody_charges (h : ∀ r, Charges levels r.nodesLeft (value r)) (n : Nat) (r : Reader) :
    Charges (levels + 1) (r.nodesLeft + 1) (r.arrayBody value n) := by
  apply Result.Holds.bind (P := fun _ => True)
  · rw [checkCount]
    split
    · trivial
    · split <;> trivial
  intro _ _
  apply Result.Holds.bind (arrayItems_charges h n r)
  intro p hp
  obtain ⟨hdepth, hkeyed, hnodes⟩ := hp
  refine ⟨hdepth, ?_, hkeyed⟩
  show Doc.nodesItems p.1 + 1 + p.2.nodesLeft = r.nodesLeft + 1
  omega

/-- The entries read so far, with the budget they were read under. -/
structure ChargedEntries (levels budget : Nat) (p : List (String × Doc) × Reader) : Prop where
  depth : Doc.depthEntries p.1 < levels + 1
  nodes : Doc.nodesEntries p.1 + p.2.nodesLeft = budget
  keys : (p.1.map Prod.fst).Nodup
  keyed : ∀ e ∈ p.1, e.2.Keyed

/-- One more entry under a new key pays for its key and for its value. -/
theorem ChargedEntries.push {budget : Nat} {entries : List (String × Doc)} {key : String}
    {r r' : Reader} {p : Doc × Reader} (h : ChargedEntries levels budget (entries, r))
    (hnew : ¬ entries.any (fun e => e.1 = key) = true) (hr : r'.nodesLeft + 1 = r.nodesLeft)
    (hp : Charged levels r'.nodesLeft p) :
    ChargedEntries levels budget (entries ++ [(key, p.1)], p.2) := by
  have hdepth := hp.depth
  have hnodes := hp.nodes
  have hdepths : Doc.depthEntries entries < levels + 1 := h.depth
  have hbudget : Doc.nodesEntries entries + r.nodesLeft = budget := h.nodes
  constructor
  · rw [Doc.depthEntries_append]
    omega
  · show Doc.nodesEntries (entries ++ [(key, p.1)]) + p.2.nodesLeft = budget
    rw [Doc.nodesEntries_append]
    omega
  · rw [List.map_append, List.map_singleton, List.nodup_append]
    refine ⟨h.keys, List.pairwise_singleton _ _, ?_⟩
    intro a ha b hb heq
    obtain ⟨e, he, rfl⟩ := List.mem_map.1 ha
    apply hnew
    rw [List.any_eq_true]
    exact ⟨e, he, decide_eq_true (heq.trans (List.mem_singleton.1 hb))⟩
  · intro e he
    rcases List.mem_append.1 he with he | he
    · exact h.keyed e he
    · rw [List.mem_singleton.1 he]
      exact hp.keyed

/-- The entries of a map pay for themselves, and no key comes twice. -/
theorem mapEntries_charges (h : ∀ r, Charges levels r.nodesLeft (value r)) {budget : Nat} (n : Nat)
    {entries : List (String × Doc)} {r : Reader}
    (hr : ChargedEntries levels budget (entries, r)) :
    Result.Holds (fun _ => True) (ChargedEntries levels budget) (mapEntries value n entries r) := by
  induction n generalizing entries r with
  | zero => exact hr
  | succ n ih =>
    rw [mapEntries]
    apply Result.Holds.bind (P := fun r' => r'.nodesLeft + 1 = r.nodesLeft)
    · rw [node]
      split
      · trivial
      · show r.nodesLeft - 1 + 1 = r.nodesLeft
        omega
    intro r' hr'
    apply Result.Holds.bind (valueIsStr_free r')
    intro p hp
    dsimp only
    split
    · trivial
    · next key _ =>
      split
      · trivial
      · next hnew =>
        apply Result.Holds.bind (h p.2)
        intro q hq
        rw [hp] at hq
        exact ih (hr.push hnew hr' hq)

/-- A map pays one node for itself and the nodes of its entries. -/
theorem mapBody_charges (h : ∀ r, Charges levels r.nodesLeft (value r)) (n : Nat) (r : Reader) :
    Charges (levels + 1) (r.nodesLeft + 1) (r.mapBody value n) := by
  apply Result.Holds.bind (P := fun _ => True)
  · rw [checkCount]
    split
    · trivial
    · split <;> trivial
  intro _ _
  have hinit : ChargedEntries levels r.nodesLeft ([], r) := by
    refine ⟨Nat.succ_pos levels, ?_, List.nodup_nil, fun e he => by cases he⟩
    show 0 + r.nodesLeft = r.nodesLeft
    omega
  apply Result.Holds.bind (mapEntries_charges h n hinit)
  intro p hp
  have hnodes := hp.nodes
  refine ⟨hp.depth, ?_, hp.keys, Doc.keyedEntries_iff.2 hp.keyed⟩
  show Doc.nodesEntries p.1 + 1 + p.2.nodesLeft = r.nodesLeft + 1
  omega

theorem counted_charges {width : Nat} {body : Nat → Reader → ProtoResult (Doc × Reader)}
    {r : Reader} (h : ∀ n r', Charges (levels + 1) (r'.nodesLeft + 1) (body n r')) :
    Charges (levels + 1) (r.nodesLeft + 1) (r.counted width body) := by
  apply counted_holds
  intro n r' hr
  rw [← hr]
  exact h n r'

/-- Whatever its first byte, a value pays for every node it has. -/
theorem body_charges (h : ∀ r, Charges levels r.nodesLeft (value r)) (head : UInt8) (r : Reader) :
    Charges (levels + 1) (r.nodesLeft + 1) (r.body value head) := by
  have hleaf : ∀ d : Doc, d.depth = 0 ∧ d.nodes = 1 ∧ d.Keyed →
      Charges (levels + 1) (r.nodesLeft + 1) (.ok (d, r)) := fun d hd => Charged.leaf hd rfl
  rw [body]
  repeat'
    apply Result.Holds.ite
    all_goals intro _
  all_goals
    first
    | exact hleaf _ (by simp [Doc.depth, Doc.nodes, Doc.Keyed])
    | exact unsigned_charges _ r
    | exact signed_charges _ r
    | exact float32_charges r
    | exact float64_charges r
    | exact str_charges _ r
    | exact counted_charges str_charges
    | exact counted_charges bin_charges
    | exact arrayBody_charges h _ r
    | exact counted_charges (arrayBody_charges h)
    | exact mapBody_charges h _ r
    | exact counted_charges (mapBody_charges h)
    | trivial

end Nested

/-- By induction on the levels left: every value pays for its nodes and stays within its depth. -/
theorem value_charges (levels : Nat) (r : Reader) :
    Charges levels r.nodesLeft (value levels r) := by
  induction levels generalizing r with
  | zero => trivial
  | succ levels ih =>
    rw [value, node]
    split
    · trivial
    · next hpos =>
      rw [Result.ok_bind]
      apply Result.Holds.bind (byte_free _)
      intro p hp
      have hbudget : p.2.nodesLeft + 1 = r.nodesLeft := by
        rw [hp]
        show r.nodesLeft - 1 + 1 = r.nodesLeft
        omega
      rw [← hbudget]
      exact body_charges ih p.1 p.2

end Reader

/-- A decoded document keeps the depth and node limits and repeats no key. -/
theorem decodeDoc_eq_ok {bytes : Bytes} {limits : DecodeLimits} {d : Doc}
    (h : decodeDoc bytes limits = .ok d) : d.Accepted limits := by
  rw [decodeDoc, Result.guard_eq_ok] at h
  obtain ⟨p, hp, h⟩ := Result.bind_eq_ok.1 h.2
  have hcharged := Reader.value_charges (limits.maxDepth + 1)
    ⟨bytes, limits.maxNodes, limits.maxDepth⟩
  rw [hp] at hcharged
  have hdepth := hcharged.depth
  have hnodes : p.1.nodes + p.2.nodesLeft = limits.maxNodes := hcharged.nodes
  dsimp only at h
  split at h
  · cases h
    exact ⟨by omega, by omega, hcharged.keyed⟩
  · cases h

end Edb.Proto
