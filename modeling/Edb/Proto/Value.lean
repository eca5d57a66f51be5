import Edb.Proto.Result

/-!
# Values from the wire

A value is read back under the kind its column declares: the wire form alone does not tell a
timestamp from an integer or a uuid from a text, and a json document may be any of them.

* **Round trip** (`value_codec`): what `encodeValue` writes, `decodeValue` reads back under the
  kind of the value, and a null under every kind.
* The one value that does not come back is the json document that is a lone nil: its bytes are
  those of a null, and a nil is a null whatever the kind.
-/

namespace Edb.Proto

open Edb.Types Edb.Lib

/-! ## Reading -/

/-- A human-readable name for the family of a head byte. -/
def headName (head : UInt8) : String :=
  let h := head.toNat
  if h ≤ 0x7F ∨ 0xE0 ≤ h ∨ (0xCC ≤ h ∧ h ≤ 0xD3) then "int"
  else if h ≤ 0x8F ∨ h = 0xDE ∨ h = 0xDF then "map"
  else if h ≤ 0x9F ∨ h = 0xDC ∨ h = 0xDD then "array"
  else if h ≤ 0xBF ∨ (0xD9 ≤ h ∧ h ≤ 0xDB) then "str"
  else if h = 0xC0 then "nil"
  else if h = 0xC2 ∨ h = 0xC3 then "bool"
  else if 0xC4 ≤ h ∧ h ≤ 0xC6 then "bin"
  else if (0xC7 ≤ h ∧ h ≤ 0xC9) ∨ (0xD4 ≤ h ∧ h ≤ 0xD8) then "ext"
  else if h = 0xCA ∨ h = 0xCB then "float"
  else "reserved"

/-- The wire holds something other than what the schema declares (`Reader::wrong`). -/
def wrongType {α : Type} (expected : TypeKind) (head : UInt8) : Except TypeError α :=
  .error (.wrongWireType expected (headName head))

/-- A word of `width` bytes, range-checked into `i64`. -/
def unsignedPayload (width : Nat) (rest : Bytes) : Except TypeError (Int64 × Bytes) := do
  let (n, rest) ← Msgpack.takeBe width rest
  if n < 2 ^ 63 then pure (Int64.ofNat n, rest) else Msgpack.bad (.intOutOfRange n)

def signedPayload (width : Nat) (rest : Bytes) : Except TypeError (Int64 × Bytes) := do
  let (n, rest) ← Msgpack.takeBe width rest
  pure (Reader.ofTwos (8 * width) n, rest)

/-- Any int family, range-checked into `i64`. -/
def intPayload (kind : TypeKind) (head : UInt8) (rest : Bytes) :
    Except TypeError (Int64 × Bytes) :=
  let h := head.toNat
  if h ≤ 0x7F then .ok (Int64.ofNat h, rest)
  else if 0xE0 ≤ h then .ok (Reader.ofTwos 8 h, rest)
  else if h = 0xCC then unsignedPayload 1 rest
  else if h = 0xCD then unsignedPayload 2 rest
  else if h = 0xCE then unsignedPayload 4 rest
  else if h = 0xCF then unsignedPayload 8 rest
  else if h = 0xD0 then signedPayload 1 rest
  else if h = 0xD1 then signedPayload 2 rest
  else if h = 0xD2 then signedPayload 4 rest
  else if h = 0xD3 then signedPayload 8 rest
  else wrongType kind head

/-- A text of `len` bytes. -/
def textOf (len : Nat) (rest : Bytes) : Except TypeError (String × Bytes) := do
  let (bytes, rest) ← Msgpack.take len rest
  match fromUtf8 bytes with
  | none => Msgpack.bad .invalidUtf8
  | some s => pure (s, rest)

/-- A length of `width` bytes, and what it is the length of. -/
def sizedPayload {α : Type} (width : Nat) (body : Nat → Bytes → Except TypeError (α × Bytes))
    (rest : Bytes) : Except TypeError (α × Bytes) := do
  let (len, rest) ← Msgpack.takeBe width rest
  body len rest

def strPayload (kind : TypeKind) (head : UInt8) (rest : Bytes) :
    Except TypeError (String × Bytes) :=
  let h := head.toNat
  if 0xA0 ≤ h ∧ h ≤ 0xBF then textOf (h % 0x20) rest
  else if h = 0xD9 then sizedPayload 1 textOf rest
  else if h = 0xDA then sizedPayload 2 textOf rest
  else if h = 0xDB then sizedPayload 4 textOf rest
  else wrongType kind head

def blobPayload (kind : TypeKind) (head : UInt8) (rest : Bytes) :
    Except TypeError (Bytes × Bytes) :=
  let h := head.toNat
  if h = 0xC4 then sizedPayload 1 Msgpack.take rest
  else if h = 0xC5 then sizedPayload 2 Msgpack.take rest
  else if h = 0xC6 then sizedPayload 4 Msgpack.take rest
  else wrongType kind head

def hexNibble (b : UInt8) : Except TypeError Nat :=
  let c := b.toNat
  if 0x30 ≤ c ∧ c ≤ 0x39 then .ok (c - 0x30)
  else if 0x61 ≤ c ∧ c ≤ 0x66 then .ok (c - 0x61 + 10)
  else if 0x41 ≤ c ∧ c ≤ 0x46 then .ok (c - 0x41 + 10)
  else .error .badUuid

/-- One character of a uuid at its position: a hyphen holds no digit. -/
def uuidNibble : UInt8 × Nat → Except TypeError (List Nat)
  | (b, i) =>
    if i = 8 ∨ i = 13 ∨ i = 18 ∨ i = 23 then
      if b = 0x2D then .ok [] else .error .badUuid
    else do
      let n ← hexNibble b
      pure [n]

/-- Bytes from their nibbles, the high one first. -/
def nibblePairs : List Nat → Bytes
  | hi :: lo :: rest => UInt8.ofNat (hi * 16 + lo) :: nibblePairs rest
  | _ => []

/-- Parse a canonical hyphenated uuid, in either case. -/
def uuidFromStr (s : String) : Except TypeError (Vector UInt8 16) :=
  let bytes := asBytes s
  if bytes.length ≠ 36 then .error .badUuid
  else do
    let nibbles ← bytes.zipIdx.mapM uuidNibble
    -- thirty-two digits, so sixteen bytes
    let uuid := nibblePairs nibbles.flatten
    if h : uuid.length = 16 then pure ⟨uuid.toArray, by simpa using h⟩ else .error .badUuid

/-- What follows the head byte of a value of a kind other than json. -/
def kindPayload (kind : TypeKind) (head : UInt8) (rest : Bytes) :
    Except TypeError (Value × Bytes) :=
  match kind with
  | .bool =>
    if head = 0xC2 then .ok (.bool false, rest)
    else if head = 0xC3 then .ok (.bool true, rest)
    else wrongType kind head
  | .i64 => do
    let (v, rest) ← intPayload kind head rest
    pure (.i64 v, rest)
  | .timestamp => do
    let (v, rest) ← intPayload kind head rest
    pure (.timestamp v, rest)
  | .f64 =>
    if head = 0xCA then do
      let (n, rest) ← Msgpack.takeBe 4 rest
      pure (.f64 (F64.ofF32 n), rest)
    else if head = 0xCB then do
      let (n, rest) ← Msgpack.takeBe 8 rest
      pure (.f64 ⟨UInt64.ofNat n⟩, rest)
    else wrongType kind head
  | .text => do
    let (s, rest) ← strPayload kind head rest
    pure (.text s, rest)
  | .uuid => do
    let (s, rest) ← strPayload kind head rest
    let u ← uuidFromStr s
    pure (.uuid u, rest)
  | .blob => do
    let (b, rest) ← blobPayload kind head rest
    pure (.blob b, rest)
  -- a json document is read before its head is
  | .json => wrongType kind head

/-- A json document is taken as it stands, a nil apart. -/
def jsonPayload (bytes : Bytes) : Except TypeError (Value × Bytes) :=
  if bytes.head? = some 0xC0 then do
    let (_, rest) ← Msgpack.take 1 bytes
    pure (.null, rest)
  else do
    let rest ← Msgpack.skipValue (Msgpack.maxJsonDepth + 1) bytes
    let len := bytes.length - rest.length
    pure (.json (bytes.take len), rest)

/-- Decode one value, directed by the schema kind (`Reader::value`). -/
def typedValue (kind : TypeKind) (bytes : Bytes) : Except TypeError (Value × Bytes) :=
  if kind = .json then jsonPayload bytes
  else do
    let (head, rest) ← Msgpack.byte bytes
    if head = 0xC0 then pure (.null, rest) else kindPayload kind head rest

/-- Decode one wire value as the schema kind (`types::decode_value`); nothing may follow it. -/
def decodeValue (bytes : Bytes) (kind : TypeKind) : Except TypeError Value := do
  let (v, rest) ← typedValue kind bytes
  if rest = [] then pure v else Msgpack.bad (.trailingBytes rest.length)

/-- A value a column may hold: its length fits a `u32` and a json document is well formed. -/
def Holdable : Value → Prop
  | .text s => (asBytes s).length < 2 ^ 32
  | .blob b => b.length < 2 ^ 32
  | .json doc => validateJson doc = .ok ()
  | _ => True

/-! ## Reading a payload back -/

/-- The wire form is a head byte, no nil, and a payload that reads back as `a`. -/
def ReadsAs {α : Type} (read : UInt8 → Bytes → Except TypeError (α × Bytes)) (wire : Bytes)
    (a : α) : Prop :=
  ∃ head payload, wire = head :: payload ∧ head ≠ 0xC0 ∧ read head payload = .ok (a, [])

theorem ofNat_ne_nil {n : Nat} (h : n < 256) (hne : n ≠ 0xC0) : UInt8.ofNat n ≠ 0xC0 := by
  intro hc
  exact hne ((Reader.toNat_ofNat h).symm.trans (congrArg UInt8.toNat hc))

theorem take_all {n : Nat} {bytes : Bytes} (h : bytes.length = n) :
    Msgpack.take n bytes = .ok (bytes, []) := by
  subst h
  simp [Msgpack.take]

/-- A number in big-endian order is read back, whatever follows. -/
theorem takeBe_append {n v : Nat} (h : v < 256 ^ n) (rest : Bytes) :
    Msgpack.takeBe n (beBytes n v ++ rest) = .ok (v, rest) := by
  have hlen := length_beBytes n v
  have hshort : ¬ (beBytes n v ++ rest).length < n := by
    rw [List.length_append]
    omega
  have htake : Msgpack.take n (beBytes n v ++ rest) = .ok (beBytes n v, rest) := by
    rw [Msgpack.take, if_neg hshort, List.take_left' hlen, List.drop_left' hlen]
  rw [Msgpack.takeBe, htake, Result.ok_bind]
  show Except.ok (Lex.ofDigits 256 ((beBytes n v).map UInt8.toNat), rest) = _
  rw [ofDigits_beBytes h]

theorem takeBe_all {n v : Nat} (h : v < 256 ^ n) :
    Msgpack.takeBe n (beBytes n v) = .ok (v, []) := by
  have := takeBe_append h []
  rwa [List.append_nil] at this

theorem sizedPayload_append {α : Type} {width n : Nat}
    {body : Nat → Bytes → Except TypeError (α × Bytes)} (h : n < 256 ^ width) (rest : Bytes) :
    sizedPayload width body (beBytes width n ++ rest) = body n rest := by
  rw [sizedPayload, takeBe_append h, Result.ok_bind]

/-- A non-negative integer that fits the width is read back from its bytes. -/
theorem unsignedPayload_all {width : Nat} {v : Int64} (h : v.toInt.toNat < 256 ^ width)
    (hpos : 0 ≤ v.toInt) :
    unsignedPayload width (beBytes width v.toInt.toNat) = .ok (v, []) := by
  have hlt := v.toInt_lt
  have hv : Int64.ofNat v.toInt.toNat = v := by
    rw [← Int64.ofInt_eq_ofNat, Int.toNat_of_nonneg hpos, Int64.ofInt_toInt]
  rw [unsignedPayload, takeBe_all h, Result.ok_bind]
  show (if v.toInt.toNat < 2 ^ 63 then _ else _) = _
  rw [if_pos (by omega), hv]
  rfl

/-- A negative integer that fits the width is read back from its two's complement. -/
theorem signedPayload_all {width : Nat} {v : Int64} (hw : 0 < width)
    (hlo : -2 ^ (8 * width - 1) ≤ v.toInt) (hneg : v.toInt < 0) :
    signedPayload width (beBytes width (v.toInt % 2 ^ (8 * width)).toNat) = .ok (v, []) := by
  rw [signedPayload, takeBe_all (Reader.twos_lt v.toInt width), Result.ok_bind]
  show Except.ok (Reader.ofTwos (8 * width) (v.toInt % 2 ^ (8 * width)).toNat, _) = _
  rw [Reader.ofTwos_mod (by omega) hlo hneg]

/-- One wire form per magnitude, and each is read by its own branch. -/
theorem intPayload_writeInt (kind : TypeKind) (v : Int64) :
    ReadsAs (intPayload kind) (writeInt v) v := by
  have hlt := v.toInt_lt
  have hle := v.le_toInt
  simp only [writeInt]
  by_cases hpos : 0 ≤ v.toInt
  · rw [if_pos hpos]
    split
    · next h =>
      -- one byte is enough
      have hv : Int64.ofNat v.toInt.toNat = v := by
        rw [← Int64.ofInt_eq_ofNat, Int.toNat_of_nonneg hpos, Int64.ofInt_toInt]
      refine ⟨_, _, beBytes_one, ?_, ?_⟩
      · exact ofNat_ne_nil (by omega) (by omega)
      · rw [intPayload, Reader.toNat_ofNat (by omega), if_pos h, hv]
    all_goals
      try split
    all_goals
      try split
    all_goals
      try split
    all_goals
      refine ⟨_, _, rfl, by decide, unsignedPayload_all ?_ hpos⟩
      omega
  · have hneg : v.toInt < 0 := by omega
    rw [if_neg hpos]
    split
    · next h =>
      have hword : (v.toInt % 2 ^ 8).toNat = (v.toInt + 256).toNat := by omega
      refine ⟨_, _, beBytes_one, ?_, ?_⟩
      · exact ofNat_ne_nil (by omega) (by omega)
      · rw [intPayload, Reader.toNat_ofNat (by omega), if_neg (by omega), if_pos (by omega),
          Reader.ofTwos_mod (by decide) (by omega) hneg]
    all_goals
      try split
    all_goals
      try split
    all_goals
      try split
    all_goals
      refine ⟨_, _, rfl, by decide, signedPayload_all ?_ ?_ hneg⟩
    all_goals omega

/-- A text is read back from its UTF-8. -/
theorem textOf_all {n : Nat} {s : String} (h : (asBytes s).length = n) :
    textOf n (asBytes s) = .ok (s, []) := by
  rw [textOf, take_all h, Result.ok_bind]
  show (match fromUtf8 (asBytes s) with
    | none => Msgpack.bad .invalidUtf8
    | some s => pure (s, [])) = _
  rw [fromUtf8_asBytes]
  rfl

/-- A string is read back from the header it is written with and its bytes. -/
theorem strPayload_writeStr (kind : TypeKind) {s : String} (h : (asBytes s).length < 2 ^ 32) :
    ReadsAs (strPayload kind) (writeStr s) s := by
  rw [writeStr, strHeader]
  split
  · next hn =>
    rw [beBytes_one, List.singleton_append]
    refine ⟨_, _, rfl, ?_, ?_⟩
    · exact ofNat_ne_nil (by omega) (by omega)
    · rw [strPayload, Reader.toNat_ofNat (by omega), if_pos (by omega)]
      exact textOf_all (by omega)
  all_goals
    try split
  all_goals
    try split
  all_goals
    rw [List.cons_append]
    refine ⟨_, _, rfl, by decide, Eq.trans (sizedPayload_append ?_ _) (textOf_all ?_)⟩
  all_goals omega

/-- A binary is read back from the header it is written with and its bytes. -/
theorem blobPayload_writeBin (kind : TypeKind) {b : Bytes} (h : b.length < 2 ^ 32) :
    ReadsAs (blobPayload kind) (writeBin b) b := by
  rw [writeBin, binHeader]
  split
  all_goals
    try split
  all_goals
    rw [List.cons_append]
    refine ⟨_, _, rfl, by decide, Eq.trans (sizedPayload_append ?_ _) (take_all ?_)⟩
  all_goals omega

/-! ## Uuids -/

/-- The ASCII code of a hexadecimal digit. -/
def hexCode (n : Nat) : UInt8 := UInt8.ofNat (if n < 10 then 0x30 + n else 0x57 + n)

theorem hexDigit_code {n : Nat} (h : n < 16) :
    String.utf8EncodeChar (hexDigit n) = [hexCode n] ∧ hexNibble (hexCode n) = .ok n := by
  have hall : ∀ n < 16,
      String.utf8EncodeChar (hexDigit n) = [hexCode n] ∧ hexNibble (hexCode n) = .ok n := by
    decide
  exact hall n h

theorem asBytes_ofList (cs : List Char) :
    asBytes (String.ofList cs) = cs.flatMap String.utf8EncodeChar := by
  simp [asBytes, List.utf8Encode]

/-- The two digits of a byte, behind the hyphen that stands before some of them. -/
def uuidCodes : UInt8 × Nat → Bytes
  | (b, i) => (if i = 4 ∨ i = 6 ∨ i = 8 ∨ i = 10 then [0x2D] else [])
      ++ [hexCode (b.toNat / 16), hexCode (b.toNat % 16)]

/-- The canonical text of a UUID, byte by byte: its digits, and the dashes between them. -/
theorem asBytes_uuidToString (u : Vector UInt8 16) :
    asBytes (uuidToString u) = u.toList.zipIdx.flatMap uuidCodes := by
  rw [uuidToString, asBytes_ofList, List.flatMap_assoc]
  apply List.flatMap_congr
  rintro ⟨b, i⟩ _
  have hb := b.toNat_lt
  have hhi := (hexDigit_code (n := b.toNat / 16) (by omega)).1
  have hlo := (hexDigit_code (n := b.toNat % 16) (by omega)).1
  dsimp only
  rw [List.flatMap_append, uuidCodes, List.flatMap_cons, List.flatMap_cons, hhi, hlo]
  split <;> rfl

theorem uuidNibble_hexCode {n i : Nat} (h : n < 16) (hi : ¬ (i = 8 ∨ i = 13 ∨ i = 18 ∨ i = 23)) :
    uuidNibble (hexCode n, i) = .ok [n] := by
  rw [uuidNibble, if_neg hi, (hexDigit_code h).2]
  rfl

/-- A UUID is read back from its canonical text. -/
theorem uuidFromStr_uuidToString (u : Vector UInt8 16) : uuidFromStr (uuidToString u) = .ok u := by
  obtain ⟨⟨l⟩, hl⟩ := u
  have hlen : l.length = 16 := hl
  match l, hlen with
  | [b0, b1, b2, b3, b4, b5, b6, b7, b8, b9, b10, b11, b12, b13, b14, b15], _ =>
    have hhi : ∀ (b : UInt8) (i : Nat), ¬ (i = 8 ∨ i = 13 ∨ i = 18 ∨ i = 23) →
        uuidNibble (hexCode (b.toNat / 16), i) = .ok [b.toNat / 16] := by
      intro b i hi
      have := b.toNat_lt
      exact uuidNibble_hexCode (by omega) hi
    have hlo : ∀ (b : UInt8) (i : Nat), ¬ (i = 8 ∨ i = 13 ∨ i = 18 ∨ i = 23) →
        uuidNibble (hexCode (b.toNat % 16), i) = .ok [b.toNat % 16] := by
      intro b i hi
      exact uuidNibble_hexCode (by omega) hi
    have hdash : ∀ i : Nat, (i = 8 ∨ i = 13 ∨ i = 18 ∨ i = 23) → uuidNibble (0x2D, i) = .ok [] := by
      intro i hi
      rw [uuidNibble, if_pos hi]
      rfl
    have hbyte : ∀ b : UInt8, UInt8.ofNat (b.toNat / 16 * 16 + b.toNat % 16) = b := by
      intro b
      rw [Nat.div_add_mod', UInt8.ofNat_toNat]
    rw [uuidFromStr, asBytes_uuidToString]
    simp [List.zipIdx, uuidCodes, hhi, hlo, hdash, nibblePairs, hbyte]

theorem length_uuidToString (u : Vector UInt8 16) : (asBytes (uuidToString u)).length = 36 := by
  by_contra hlen
  have h := uuidFromStr_uuidToString u
  rw [uuidFromStr, if_pos hlen] at h
  cases h

/-! ## Reading a value back -/

/-- A kind other than json is read by its head byte. -/
theorem decodeValue_headed {kind : TypeKind} {wire : Bytes} {v : Value} (hkind : kind ≠ .json)
    (h : ReadsAs (kindPayload kind) wire v) : decodeValue wire kind = .ok v := by
  obtain ⟨head, payload, rfl, hhead, hread⟩ := h
  have htyped : typedValue kind (head :: payload) = .ok (v, []) := by
    rw [typedValue, if_neg hkind]
    show (if head = 0xC0 then _ else kindPayload kind head payload) = _
    rw [if_neg hhead, hread]
  rw [decodeValue, htyped]
  rfl

/-- A payload under the constructor of its kind. -/
theorem ReadsAs.map {α : Type} {read : UInt8 → Bytes → Except TypeError (α × Bytes)}
    {read' : UInt8 → Bytes → Except TypeError (Value × Bytes)} {wire : Bytes} {a : α} {v : Value}
    (h : ReadsAs read wire a)
    (hread : ∀ head payload, read head payload = .ok (a, []) → read' head payload = .ok (v, [])) :
    ReadsAs read' wire v := by
  obtain ⟨head, payload, rfl, hhead, h⟩ := h
  exact ⟨head, payload, rfl, hhead, hread head payload h⟩

/-- Every value a column can hold is read back from its encoding, as the kind it has. -/
theorem encodeValue_reads {v : Value} {kind : TypeKind} (hv : Holdable v)
    (hkind : v.kind = some kind) (hjson : kind ≠ .json) :
    ∃ wire, encodeValue v = .ok wire ∧ ReadsAs (kindPayload kind) wire v := by
  cases v with
  | null => cases hkind
  | bool b =>
    cases hkind
    cases b
    · exact ⟨_, rfl, _, _, rfl, by decide, rfl⟩
    · exact ⟨_, rfl, _, _, rfl, by decide, rfl⟩
  | i64 n =>
    cases hkind
    refine ⟨_, rfl, (intPayload_writeInt .i64 n).map ?_⟩
    intro head payload h
    rw [kindPayload, h]
    rfl
  | timestamp n =>
    cases hkind
    refine ⟨_, rfl, (intPayload_writeInt .timestamp n).map ?_⟩
    intro head payload h
    rw [kindPayload, h]
    rfl
  | f64 f =>
    cases hkind
    refine ⟨_, rfl, _, _, rfl, by decide, ?_⟩
    rw [kindPayload, if_neg (by decide), if_pos rfl, takeBe_all f.bits.toNat_lt, Result.ok_bind]
    show Except.ok (Value.f64 ⟨UInt64.ofNat f.bits.toNat⟩, []) = _
    rw [UInt64.ofNat_toNat]
  | text s =>
    cases hkind
    refine ⟨_, if_pos hv, (strPayload_writeStr .text hv).map ?_⟩
    intro head payload h
    rw [kindPayload, h]
    rfl
  | uuid u =>
    cases hkind
    -- a UUID travels as its text, whose length is fixed
    have hlen : (asBytes (uuidToString u)).length < 2 ^ 32 := by
      rw [length_uuidToString]
      decide
    refine ⟨_, if_pos hlen, (strPayload_writeStr .uuid hlen).map ?_⟩
    intro head payload h
    rw [kindPayload, h, Result.ok_bind]
    show (uuidFromStr (uuidToString u) >>= fun u => pure (Value.uuid u, [])) = _
    rw [uuidFromStr_uuidToString]
    rfl
  | blob b =>
    cases hkind
    refine ⟨_, if_pos hv, (blobPayload_writeBin .blob hv).map ?_⟩
    intro head payload h
    rw [kindPayload, h]
    rfl
  | json doc => exact absurd (Option.some.inj hkind).symm hjson

/-- A well-formed document is taken whole, unless it is a nil. -/
theorem decodeValue_json {doc : Bytes} (h : validateJson doc = .ok ()) (hnil : doc ≠ [0xC0]) :
    decodeValue doc .json = .ok (.json doc) := by
  obtain ⟨rest, hskip, hrest⟩ := Result.bind_eq_ok.1 h
  have hend : rest = [] := by
    by_contra hne
    rw [if_neg hne] at hrest
    cases hrest
  subst hend
  have hhead : doc.head? ≠ some 0xC0 := by
    intro hhead
    obtain ⟨tail, rfl⟩ : ∃ tail, doc = 0xC0 :: tail := by
      cases doc with
      | nil => cases hhead
      | cons b tail => exact ⟨tail, by rw [Option.some.inj hhead]⟩
    -- the nil is all the gate walks over, so nothing may follow it
    have hwalk : Msgpack.skipValue (Msgpack.maxJsonDepth + 1) (0xC0 :: tail) = .ok tail := rfl
    rw [hwalk] at hskip
    exact hnil (by rw [Except.ok.inj hskip])
  have htyped : typedValue .json doc = .ok (.json doc, []) := by
    rw [typedValue, if_pos rfl, jsonPayload, if_neg hhead, hskip, Result.ok_bind]
    simp
  rw [decodeValue, htyped]
  rfl

/-- Whatever is read past a head byte is of the kind that was asked for. -/
theorem kindPayload_kind {kind : TypeKind} {head : UInt8} {rest rest' : Bytes} {v : Value}
    (h : kindPayload kind head rest = .ok (v, rest')) : v.kind = some kind := by
  cases kind with
  | bool =>
    rw [kindPayload] at h
    split at h
    · cases h
      rfl
    · split at h
      · cases h
        rfl
      · cases h
  | f64 =>
    rw [kindPayload] at h
    split at h
    · obtain ⟨p, _, hp⟩ := Result.bind_eq_ok.1 h
      cases hp
      rfl
    · split at h
      · obtain ⟨p, _, hp⟩ := Result.bind_eq_ok.1 h
        cases hp
        rfl
      · cases h
  | uuid =>
    obtain ⟨p, _, hp⟩ := Result.bind_eq_ok.1 h
    obtain ⟨u, _, hu⟩ := Result.bind_eq_ok.1 hp
    cases hu
    rfl
  | json => cases h
  | i64 =>
    obtain ⟨p, _, hp⟩ := Result.bind_eq_ok.1 h
    cases hp
    rfl
  | timestamp =>
    obtain ⟨p, _, hp⟩ := Result.bind_eq_ok.1 h
    cases hp
    rfl
  | text =>
    obtain ⟨p, _, hp⟩ := Result.bind_eq_ok.1 h
    cases hp
    rfl
  | blob =>
    obtain ⟨p, _, hp⟩ := Result.bind_eq_ok.1 h
    cases hp
    rfl

/-- The lone nil is the one wire form of NULL, under every kind. -/
theorem decodeValue_null {bytes : Bytes} {kind : TypeKind} :
    decodeValue bytes kind = .ok .null ↔ bytes = [0xC0] := by
  constructor
  · intro h
    obtain ⟨⟨v, rest⟩, htyped, hrest⟩ := Result.bind_eq_ok.1 h
    dsimp only at hrest
    split at hrest
    · next hend =>
      cases hrest
      subst hend
      rw [typedValue] at htyped
      split at htyped
      · rw [jsonPayload] at htyped
        split at htyped
        · next hhead =>
          -- JSON has no header of its own, so its NULL is the nil document
          obtain ⟨tail, rfl⟩ : ∃ tail, bytes = 0xC0 :: tail := by
            cases bytes with
            | nil => cases hhead
            | cons b tail => exact ⟨tail, by rw [Option.some.inj hhead]⟩
          have htail : tail = [] := by simpa [Msgpack.take] using htyped
          rw [htail]
        · obtain ⟨rest, _, hjson⟩ := Result.bind_eq_ok.1 htyped
          cases hjson
      · cases bytes with
        | nil => cases htyped
        | cons head tail =>
          have htyped : (if head = 0xC0 then pure (Value.null, tail)
              else kindPayload kind head tail) = .ok (.null, []) := htyped
          split at htyped
          · next hhead =>
            cases htyped
            rw [hhead]
          · cases kindPayload_kind htyped
    · cases hrest
  · rintro rfl
    cases kind <;> rfl

/-- Only a null and the json document nil are written as the lone nil. -/
theorem encodeValue_nil {v : Value} (hv : Holdable v) :
    encodeValue v = .ok [0xC0] ↔ v = .null ∨ v = .json [0xC0] := by
  constructor
  · intro h
    cases hkind : v.kind with
    | none => exact .inl (Value.kind_eq_none.1 hkind)
    | some kind =>
      by_cases hjson : kind = .json
      · subst hjson
        cases v with
        | json doc => exact .inr (congrArg Value.json (Except.ok.inj h))
        | _ => cases hkind
      · obtain ⟨wire, hwire, head, payload, rfl, hhead, _⟩ := encodeValue_reads hv hkind hjson
        rw [h] at hwire
        cases hwire
        exact absurd rfl hhead
  · rintro (rfl | rfl) <;> rfl

/-- A value is read back under its own kind, and NULL under every kind; what is not NULL is
NULL under none, but for the json document that is a lone nil, which is taken for one. -/
theorem value_codec {v : Value} (hv : Holdable v) :
    ∃ wire, encodeValue v = .ok wire
      ∧ (∀ kind, v.kind = none ∨ v.kind = some kind → v ≠ .json [0xC0] →
        decodeValue wire kind = .ok v)
      ∧ ∀ kind, decodeValue wire kind = .ok .null ↔ v = .null ∨ v = .json [0xC0] := by
  have hnull : ∀ wire, encodeValue v = .ok wire →
      ∀ kind, decodeValue wire kind = .ok .null ↔ v = .null ∨ v = .json [0xC0] := by
    intro wire hwire kind
    rw [decodeValue_null, ← encodeValue_nil hv, hwire]
    exact ⟨fun h => congrArg _ h, Except.ok.inj⟩
  cases hkind : v.kind with
  | none =>
    obtain rfl := Value.kind_eq_none.1 hkind
    exact ⟨_, rfl, fun kind _ _ => decodeValue_null.2 rfl, hnull _ rfl⟩
  | some kind =>
    by_cases hjson : kind = .json
    · subst hjson
      cases v with
      | json doc =>
        refine ⟨_, rfl, ?_, hnull _ rfl⟩
        rintro kind (hk | hk) hnil
        · cases hk
        · cases hk
          exact decodeValue_json hv (fun hdoc => hnil (congrArg Value.json hdoc))
      | _ => cases hkind
    · obtain ⟨wire, hwire, hreads⟩ := encodeValue_reads hv hkind hjson
      refine ⟨wire, hwire, ?_, hnull wire hwire⟩
      rintro kind' (hk | hk) _
      · cases hk
      · cases hk
        exact decodeValue_headed hjson hreads

/-- A blob comes back as itself and not as NULL. -/
theorem value_codec_blob :
    Holdable (.blob [1, 2]) ∧ decodeValue [0xC4, 2, 1, 2] .blob = .ok (.blob [1, 2]) := by
  have hhold : Holdable (.blob [1, 2]) := show [1, 2].length < 2 ^ 32 by decide
  obtain ⟨wire, hwire, hback, _⟩ := value_codec hhold
  cases hwire
  exact ⟨hhold, hback .blob (.inr rfl) (fun h => by cases h)⟩

/-- The document nil passes the gate of json columns and is read as NULL. -/
theorem json_nil_is_null :
    validateJson [0xC0] = .ok () ∧ encodeValue (.json [0xC0]) = .ok [0xC0] ∧
      decodeValue [0xC0] .json = .ok .null := by
  decide

end Edb.Proto
