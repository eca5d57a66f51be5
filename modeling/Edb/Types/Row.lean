import Edb.Common.Basic
import Edb.Lib.Result
import Edb.Types.Key

/-!
# The row encoding

A `u16` little-endian column count, then per value one tag byte and a payload;
variable-length payloads carry a `u32` little-endian length. Rows need not be
order-preserving, only to come back exactly, floats bit for bit (`decodeRow_encodeRow`).
-/

namespace Edb.Types

open Edb.Lib

namespace Row

def tagNull : UInt8 := 0
def tagBool : UInt8 := 1
def tagI64 : UInt8 := 2
def tagF64 : UInt8 := 3
def tagText : UInt8 := 4
def tagBlob : UInt8 := 5
def tagUuid : UInt8 := 6
def tagJson : UInt8 := 7
def tagTimestamp : UInt8 := 8

/-- The most columns a row may carry. -/
def maxColumns : Nat := 4096

/-- A length-prefixed payload. -/
def pushVar (out bytes : Bytes) : Except TypeError Bytes :=
  if bytes.length < 2 ^ 32 then .ok (out ++ toLeBytes 4 bytes.length ++ bytes)
  else .error (.valueTooLarge bytes.length)

/-- Append one value. -/
def pushValue (out : Bytes) : Value → Except TypeError Bytes
  | .null => .ok (out ++ [tagNull])
  | .bool b => .ok (out ++ [tagBool] ++ [b.toUInt8])
  | .i64 v => .ok (out ++ [tagI64] ++ toLeBytes 8 v.toUInt64.toNat)
  | .f64 v => .ok (out ++ [tagF64] ++ toLeBytes 8 v.bits.toNat)
  | .text s => pushVar (out ++ [tagText]) (asBytes s)
  | .blob b => pushVar (out ++ [tagBlob]) b
  | .uuid u => .ok (out ++ [tagUuid] ++ u.toList)
  | .json b => pushVar (out ++ [tagJson]) b
  | .timestamp v => .ok (out ++ [tagTimestamp] ++ toLeBytes 8 v.toUInt64.toNat)

def corrupt {α : Type} (kind : RowCorruption) : Except TypeError α := .error (.rowCorrupt kind)

/-- Split `n` bytes off the front. -/
def take (n : Nat) (rest : Bytes) : Except TypeError (Bytes × Bytes) :=
  if rest.length < n then corrupt .truncated else .ok (rest.take n, rest.drop n)

/-- Read a length-prefixed payload. -/
def takeVar (rest : Bytes) : Except TypeError (Bytes × Bytes) := do
  let (len, rest) ← take 4 rest
  take (fromLeBytes len) rest

/-- Read an `i64`. -/
def takeI64 (rest : Bytes) : Except TypeError (Int64 × Bytes) := do
  let (word, rest) ← take 8 rest
  pure ((UInt64.ofNat (fromLeBytes word)).toInt64, rest)

/-- The value, or the corruption its absence is. -/
def orCorrupt {α : Type} (kind : RowCorruption) : Option α → Except TypeError α
  | none => corrupt kind
  | some a => .ok a

/-- The payload of a `bool`. -/
def boolOf (byte : UInt8) : Except TypeError Value :=
  if byte = 0 then .ok (.bool false)
  else if byte = 1 then .ok (.bool true)
  else corrupt (.badBool byte)

/-- Read one byte. -/
def takeByte : Bytes → Except TypeError (UInt8 × Bytes)
  | [] => corrupt .truncated
  | byte :: rest => .ok (byte, rest)

/-- Read one value. -/
def value (rest : Bytes) : Except TypeError (Value × Bytes) := do
  let (tag, rest) ← takeByte rest
  if tag = tagNull then pure (.null, rest)
  else if tag = tagBool then do
    let (byte, rest) ← takeByte rest
    let b ← boolOf byte
    pure (b, rest)
  else if tag = tagI64 then do
    let (v, rest) ← takeI64 rest
    pure (.i64 v, rest)
  else if tag = tagF64 then do
    let (word, rest) ← take 8 rest
    pure (.f64 ⟨UInt64.ofNat (fromLeBytes word)⟩, rest)
  else if tag = tagText then do
    let (bytes, rest) ← takeVar rest
    let text ← orCorrupt .invalidUtf8 (fromUtf8 bytes)
    pure (.text text, rest)
  else if tag = tagBlob then do
    let (bytes, rest) ← takeVar rest
    pure (.blob bytes, rest)
  else if tag = tagUuid then do
    let (uuid, rest) ← orCorrupt .truncated (splitArray 16 rest)
    pure (.uuid uuid, rest)
  else if tag = tagJson then do
    let (bytes, rest) ← takeVar rest
    pure (.json bytes, rest)
  else if tag = tagTimestamp then do
    let (v, rest) ← takeI64 rest
    pure (.timestamp v, rest)
  else corrupt (.badTag tag)

/-- Read `count` values. -/
def values : Nat → Bytes → Except TypeError (List Value × Bytes)
  | 0, rest => .ok ([], rest)
  | count + 1, rest => do
    let (v, rest) ← value rest
    let (vs, rest) ← values count rest
    pure (v :: vs, rest)

end Row

open Row in
/-- Encode a row, one value per column in schema order. -/
def encodeRow (vs : List Value) : Except TypeError Bytes :=
  if vs.length > maxColumns then .error (.tooManyColumns vs.length maxColumns)
  else vs.foldlM pushValue (toLeBytes 2 vs.length)

open Row in
/-- Decode a row produced by `encodeRow`. -/
def decodeRow (bytes : Bytes) : Except TypeError (List Value) := do
  let (count, rest) ← take 2 bytes
  let (vs, rest) ← values (fromLeBytes count) rest
  if rest = [] then pure vs else corrupt (.trailingBytes rest.length)

/-! ## Reading back what was written -/

namespace Row

theorem take_append {n : Nat} {head : Bytes} (h : head.length = n) (rest : Bytes) :
    take n (head ++ rest) = .ok (head, rest) := by
  have hshort : ¬ (head ++ rest).length < n := by
    rw [List.length_append, h]
    omega
  rw [take, if_neg hshort, List.take_left' h, List.drop_left' h]

theorem takeVar_append {bytes : Bytes} (h : bytes.length < 2 ^ 32) (rest : Bytes) :
    takeVar (toLeBytes 4 bytes.length ++ bytes ++ rest) = .ok (bytes, rest) := by
  have hlen : fromLeBytes (toLeBytes 4 bytes.length) = bytes.length :=
    fromLeBytes_toLeBytes (by omega)
  have hval : ∀ bytes, takeVar bytes = (take 4 bytes >>= fun p => take (fromLeBytes p.1) p.2) :=
    fun _ => rfl
  rw [hval, List.append_assoc, take_append (length_toLeBytes 4 _), Result.ok_bind, hlen,
    take_append rfl]

theorem takeI64_append (v : Int64) (rest : Bytes) :
    takeI64 (toLeBytes 8 v.toUInt64.toNat ++ rest) = .ok (v, rest) := by
  have hlt : v.toUInt64.toNat < 256 ^ 8 := v.toUInt64.toNat_lt
  rw [takeI64, take_append (length_toLeBytes 8 _)]
  show Except.ok ((UInt64.ofNat (fromLeBytes (toLeBytes 8 v.toUInt64.toNat))).toInt64, rest) = _
  rw [fromLeBytes_toLeBytes hlt, UInt64.ofNat_toNat, Int64.toInt64_toUInt64]

/-- The bytes one value adds to a row, when it can be encoded. -/
def cell : Value → Bytes
  | .null => [tagNull]
  | .bool b => [tagBool, b.toUInt8]
  | .i64 v => tagI64 :: toLeBytes 8 v.toUInt64.toNat
  | .f64 v => tagF64 :: toLeBytes 8 v.bits.toNat
  | .text s => tagText :: (toLeBytes 4 (asBytes s).length ++ asBytes s)
  | .blob b => tagBlob :: (toLeBytes 4 b.length ++ b)
  | .uuid u => tagUuid :: u.toList
  | .json b => tagJson :: (toLeBytes 4 b.length ++ b)
  | .timestamp v => tagTimestamp :: toLeBytes 8 v.toUInt64.toNat

/-- The variable-length payload of a value, empty for the fixed-width ones. -/
def varPayload : Value → Bytes
  | .text s => asBytes s
  | .blob b => b
  | .json b => b
  | _ => []

theorem pushVar_eq {out bytes : Bytes} :
    pushVar out bytes = if bytes.length < 2 ^ 32
      then .ok (out ++ (toLeBytes 4 bytes.length ++ bytes))
      else .error (.valueTooLarge bytes.length) := by
  rw [pushVar, List.append_assoc]

/-- A value is written unless its payload is too long. -/
theorem pushValue_eq (out : Bytes) (v : Value) :
    pushValue out v = if (varPayload v).length < 2 ^ 32
      then .ok (out ++ cell v) else .error (.valueTooLarge (varPayload v).length) := by
  cases v with
  | text s =>
    rw [pushValue, pushVar_eq, List.append_assoc]
    rfl
  | blob b =>
    rw [pushValue, pushVar_eq, List.append_assoc]
    rfl
  | json b =>
    rw [pushValue, pushVar_eq, List.append_assoc]
    rfl
  | _ => simp [pushValue, varPayload, cell]

/-- One value is read back, whatever follows it. -/
theorem value_cell {v : Value} (h : (varPayload v).length < 2 ^ 32) (rest : Bytes) :
    value (cell v ++ rest) = .ok (v, rest) := by
  cases v with
  | null => rfl
  | bool b => cases b <;> rfl
  | i64 v =>
    have hval : ∀ bytes, value (tagI64 :: bytes)
        = (takeI64 bytes >>= fun p => pure (Value.i64 p.1, p.2)) := fun _ => rfl
    rw [cell, List.cons_append, hval, takeI64_append]
    rfl
  | f64 v =>
    have hlt : v.bits.toNat < 256 ^ 8 := v.bits.toNat_lt
    have hval : ∀ bytes, value (tagF64 :: bytes)
        = (take 8 bytes >>= fun p => pure (Value.f64 ⟨UInt64.ofNat (fromLeBytes p.1)⟩, p.2)) :=
      fun _ => rfl
    rw [cell, List.cons_append, hval, take_append (length_toLeBytes 8 _)]
    show Except.ok (Value.f64 ⟨UInt64.ofNat (fromLeBytes (toLeBytes 8 v.bits.toNat))⟩, rest) = _
    rw [fromLeBytes_toLeBytes hlt, UInt64.ofNat_toNat]
  | text s =>
    have hvar := takeVar_append (show (asBytes s).length < 2 ^ 32 from h) rest
    have hval : ∀ bytes, value (tagText :: bytes)
        = (takeVar bytes >>= fun p => orCorrupt .invalidUtf8 (fromUtf8 p.1) >>= fun text =>
            pure (Value.text text, p.2)) := fun _ => rfl
    rw [cell, List.cons_append, hval, hvar]
    show (orCorrupt .invalidUtf8 (fromUtf8 (asBytes s)) >>= _) = _
    -- the bytes of a text are its UTF-8, so the decoder accepts them
    rw [fromUtf8_asBytes]
    rfl
  | blob b =>
    have hvar := takeVar_append (show b.length < 2 ^ 32 from h) rest
    have hval : ∀ bytes, value (tagBlob :: bytes)
        = (takeVar bytes >>= fun p => pure (Value.blob p.1, p.2)) := fun _ => rfl
    rw [cell, List.cons_append, hval, hvar]
    rfl
  | uuid u =>
    have hval : ∀ bytes, value (tagUuid :: bytes)
        = (orCorrupt .truncated (splitArray 16 bytes) >>= fun p => pure (Value.uuid p.1, p.2)) :=
      fun _ => rfl
    rw [cell, List.cons_append, hval, splitArray_append]
    rfl
  | json b =>
    have hvar := takeVar_append (show b.length < 2 ^ 32 from h) rest
    have hval : ∀ bytes, value (tagJson :: bytes)
        = (takeVar bytes >>= fun p => pure (Value.json p.1, p.2)) := fun _ => rfl
    rw [cell, List.cons_append, hval, hvar]
    rfl
  | timestamp v =>
    have hval : ∀ bytes, value (tagTimestamp :: bytes)
        = (takeI64 bytes >>= fun p => pure (Value.timestamp p.1, p.2)) := fun _ => rfl
    rw [cell, List.cons_append, hval, takeI64_append]
    rfl

/-- Written values come back in order. -/
theorem values_of_foldlM {vs : List Value} :
    ∀ {out bytes : Bytes}, vs.foldlM pushValue out = .ok bytes →
      ∃ body, bytes = out ++ body ∧ ∀ rest, values vs.length (body ++ rest) = .ok (vs, rest) := by
  induction vs with
  | nil =>
    intro out bytes h
    cases h
    exact ⟨[], by simp, fun rest => rfl⟩
  | cons v vs ih =>
    intro out bytes h
    rw [List.foldlM_cons, pushValue_eq] at h
    by_cases hlen : (varPayload v).length < 2 ^ 32
    · rw [if_pos hlen] at h
      have hrest : vs.foldlM pushValue (out ++ cell v) = .ok bytes := h
      obtain ⟨body, hbytes, hbody⟩ := ih hrest
      refine ⟨cell v ++ body, by rw [hbytes, List.append_assoc], ?_⟩
      intro rest
      rw [List.length_cons, values, List.append_assoc, value_cell hlen]
      show (values vs.length (body ++ rest) >>= _) = _
      rw [hbody]
      rfl
    · rw [if_neg hlen] at h
      cases h

/-! ## Writing back what was read -/

theorem take_eq_ok {n : Nat} {bytes head rest : Bytes} (h : take n bytes = .ok (head, rest)) :
    bytes = head ++ rest ∧ head.length = n := by
  rw [take] at h
  split at h
  · cases h
  · next hlong =>
    cases h
    refine ⟨(List.take_append_drop n bytes).symm, ?_⟩
    rw [List.length_take]
    omega

theorem takeByte_eq_ok {bytes rest : Bytes} {b : UInt8} (h : takeByte bytes = .ok (b, rest)) :
    bytes = b :: rest := by
  cases bytes with
  | nil => cases h
  | cons c bytes =>
    cases h
    rfl

theorem takeVar_eq_ok {bytes payload rest : Bytes} (h : takeVar bytes = .ok (payload, rest)) :
    bytes = toLeBytes 4 payload.length ++ payload ++ rest ∧ payload.length < 2 ^ 32 := by
  obtain ⟨⟨word, after⟩, hword, hrest⟩ := Result.bind_eq_ok.1 h
  obtain ⟨rfl, hlen⟩ := take_eq_ok hword
  obtain ⟨rfl, hpayload⟩ := take_eq_ok hrest
  have hback := toLeBytes_fromLeBytes word
  have hlt := fromLeBytes_lt word
  rw [hlen] at hback hlt
  rw [hpayload, hback, List.append_assoc]
  exact ⟨rfl, hlt⟩

theorem takeI64_eq_ok {bytes rest : Bytes} {v : Int64} (h : takeI64 bytes = .ok (v, rest)) :
    bytes = toLeBytes 8 v.toUInt64.toNat ++ rest := by
  obtain ⟨⟨word, after⟩, hword, h⟩ := Result.bind_eq_ok.1 h
  cases h
  obtain ⟨rfl, hlen⟩ := take_eq_ok hword
  have hback := toLeBytes_fromLeBytes word
  have hlt := fromLeBytes_lt word
  rw [hlen] at hback hlt
  show word ++ rest = toLeBytes 8 (UInt64.ofNat (fromLeBytes word)).toNat ++ rest
  rw [UInt64.toNat_ofNat_of_lt' hlt, hback]

theorem orCorrupt_eq_ok {α : Type} {kind : RowCorruption} {x : Option α} {a : α}
    (h : orCorrupt kind x = .ok a) : x = some a := by
  cases x with
  | none => cases h
  | some b =>
    cases h
    rfl

/-- A value that was read is written as the bytes it was read from. -/
theorem value_eq_ok {bytes rest : Bytes} {v : Value} (h : value bytes = .ok (v, rest)) :
    bytes = cell v ++ rest ∧ (varPayload v).length < 2 ^ 32 := by
  obtain ⟨⟨tag, after⟩, htag, h⟩ := Result.bind_eq_ok.1 h
  rw [takeByte_eq_ok htag]
  dsimp only at h
  -- one tag after the other, as the reader tries them
  split at h
  · next heq =>
    subst heq
    cases h
    exact ⟨rfl, by decide⟩
  split at h
  · next heq =>
    subst heq
    obtain ⟨⟨byte, after'⟩, hbyte, h⟩ := Result.bind_eq_ok.1 h
    obtain ⟨b, hb, h⟩ := Result.bind_eq_ok.1 h
    cases h
    rw [takeByte_eq_ok hbyte]
    dsimp only at hb
    -- of the two bytes of a boolean there is no third
    rw [boolOf] at hb
    split at hb
    · next hzero =>
      cases hb
      exact ⟨by rw [hzero]; rfl, by decide⟩
    · split at hb
      · next hone =>
        cases hb
        exact ⟨by rw [hone]; rfl, by decide⟩
      · cases hb
  split at h
  · next heq =>
    subst heq
    obtain ⟨⟨n, after'⟩, hn, h⟩ := Result.bind_eq_ok.1 h
    cases h
    exact ⟨by rw [takeI64_eq_ok hn]; rfl, Nat.two_pow_pos 32⟩
  split at h
  · next heq =>
    subst heq
    obtain ⟨⟨word, after'⟩, hword, h⟩ := Result.bind_eq_ok.1 h
    cases h
    obtain ⟨rfl, hlen⟩ := take_eq_ok hword
    -- eight bytes are the bits of the float, in order
    have hback := toLeBytes_fromLeBytes word
    have hlt := fromLeBytes_lt word
    rw [hlen] at hback hlt
    refine ⟨?_, Nat.two_pow_pos 32⟩
    show _ = tagF64 :: toLeBytes 8 (UInt64.ofNat (fromLeBytes word)).toNat ++ after'
    rw [UInt64.toNat_ofNat_of_lt' hlt, hback]
    rfl
  split at h
  · next heq =>
    subst heq
    obtain ⟨⟨payload, after'⟩, hvar, h⟩ := Result.bind_eq_ok.1 h
    obtain ⟨text, htext, h⟩ := Result.bind_eq_ok.1 h
    cases h
    obtain ⟨rfl, hlen⟩ := takeVar_eq_ok hvar
    -- valid UTF-8 is what it decodes to, written again
    have hutf := asBytes_fromUtf8 (orCorrupt_eq_ok htext)
    dsimp only at hutf
    rw [← hutf] at hlen ⊢
    exact ⟨rfl, hlen⟩
  split at h
  · next heq =>
    subst heq
    obtain ⟨⟨payload, after'⟩, hvar, h⟩ := Result.bind_eq_ok.1 h
    cases h
    obtain ⟨rfl, hlen⟩ := takeVar_eq_ok hvar
    exact ⟨rfl, hlen⟩
  split at h
  · next heq =>
    subst heq
    obtain ⟨⟨u, after'⟩, huuid, h⟩ := Result.bind_eq_ok.1 h
    cases h
    have hsplit := splitArray_eq_some (orCorrupt_eq_ok huuid)
    exact ⟨by rw [hsplit]; rfl, Nat.two_pow_pos 32⟩
  split at h
  · next heq =>
    subst heq
    obtain ⟨⟨payload, after'⟩, hvar, h⟩ := Result.bind_eq_ok.1 h
    cases h
    obtain ⟨rfl, hlen⟩ := takeVar_eq_ok hvar
    exact ⟨rfl, hlen⟩
  split at h
  · next heq =>
    subst heq
    obtain ⟨⟨n, after'⟩, hn, h⟩ := Result.bind_eq_ok.1 h
    cases h
    exact ⟨by rw [takeI64_eq_ok hn]; rfl, Nat.two_pow_pos 32⟩
  · cases h

/-- Values that were read are written one after the other. -/
theorem values_eq_ok {count : Nat} {bytes rest : Bytes} {vs : List Value}
    (h : values count bytes = .ok (vs, rest)) :
    bytes = vs.flatMap cell ++ rest ∧ vs.length = count ∧
      ∀ v ∈ vs, (varPayload v).length < 2 ^ 32 := by
  induction count generalizing bytes vs with
  | zero =>
    cases h
    exact ⟨rfl, rfl, fun v hv => by cases hv⟩
  | succ count ih =>
    obtain ⟨⟨v, after⟩, hv, h⟩ := Result.bind_eq_ok.1 h
    obtain ⟨⟨ws, after'⟩, hws, h⟩ := Result.bind_eq_ok.1 h
    cases h
    obtain ⟨rfl, hlen⟩ := value_eq_ok hv
    obtain ⟨hafter, hcount, hfit⟩ := ih hws
    rw [hafter]
    refine ⟨by simp, by simp [hcount], ?_⟩
    intro w hw
    rcases List.mem_cons.1 hw with rfl | hw
    · exact hlen
    · exact hfit w hw

/-- Values with payloads that fit are written one after the other. -/
theorem foldlM_pushValue {vs : List Value} (h : ∀ v ∈ vs, (varPayload v).length < 2 ^ 32)
    (out : Bytes) : vs.foldlM pushValue out = .ok (out ++ vs.flatMap cell) := by
  induction vs generalizing out with
  | nil => simp
  | cons v vs ih =>
    rw [List.foldlM_cons, pushValue_eq, if_pos (h v (by simp)), Result.ok_bind,
      ih (fun w hw => h w (List.mem_cons_of_mem _ hw)), List.flatMap_cons, List.append_assoc]

/-- The encoding of a row with payloads that fit. -/
theorem encodeRow_eq {vs : List Value} (hlen : vs.length ≤ maxColumns)
    (h : ∀ v ∈ vs, (varPayload v).length < 2 ^ 32) :
    encodeRow vs = .ok (toLeBytes 2 vs.length ++ vs.flatMap cell) := by
  rw [encodeRow, if_neg (by omega), foldlM_pushValue h]

end Row

open Row in
/-- A row that was encoded is decoded to itself, floats bit for bit. -/
theorem decodeRow_encodeRow {vs : List Value} {bytes : Bytes} (h : encodeRow vs = .ok bytes) :
    decodeRow bytes = .ok vs := by
  rw [encodeRow] at h
  split at h
  · cases h
  · next hle =>
    obtain ⟨body, hbytes, hbody⟩ := values_of_foldlM h
    have hcount : vs.length < 256 ^ 2 := by
      have : maxColumns = 4096 := rfl
      omega
    have hvals := hbody []
    rw [List.append_nil] at hvals
    rw [decodeRow, hbytes, take_append (length_toLeBytes 2 _)]
    show (values (fromLeBytes (toLeBytes 2 vs.length)) body >>= _) = _
    rw [fromLeBytes_toLeBytes hcount, hvals]
    rfl

open Row in
/-- A row that was decoded, within the column limit, is encoded to the bytes it came from. -/
theorem encodeRow_decodeRow {bytes : Bytes} {vs : List Value} (h : decodeRow bytes = .ok vs)
    (hlen : vs.length ≤ maxColumns) : encodeRow vs = .ok bytes := by
  obtain ⟨⟨word, after⟩, hword, h⟩ := Result.bind_eq_ok.1 h
  obtain ⟨⟨ws, rest⟩, hvalues, h⟩ := Result.bind_eq_ok.1 h
  dsimp only at hvalues h
  split at h
  · next hrest =>
    cases h
    obtain ⟨rfl, hwordLen⟩ := take_eq_ok hword
    obtain ⟨hafter, hcount, hfit⟩ := values_eq_ok hvalues
    have hback := toLeBytes_fromLeBytes word
    rw [hwordLen] at hback
    rw [encodeRow_eq hlen hfit, hcount, hback, hafter, hrest, List.append_nil]
  · cases h

open Row in
/-- **The row format.** Rows within the limits are encoded and come back exactly, and the bytes
of a decoded row are its only encoding. -/
theorem row_format :
    (∀ vs : List Value, vs.length ≤ maxColumns → (∀ v ∈ vs, (varPayload v).length < 2 ^ 32) →
      ∃ bytes, encodeRow vs = .ok bytes ∧ decodeRow bytes = .ok vs) ∧
    ∀ bytes vs, decodeRow bytes = .ok vs → vs.length ≤ maxColumns → encodeRow vs = .ok bytes := by
  refine ⟨?_, fun bytes vs h hlen => encodeRow_decodeRow h hlen⟩
  intro vs hlen hfit
  exact ⟨_, encodeRow_eq hlen hfit, decodeRow_encodeRow (encodeRow_eq hlen hfit)⟩

open Row in
/-- A row with a text and a NULL, there and back. -/
theorem row_format_note :
    (∃ bytes, encodeRow [.text "note", .null] = .ok bytes ∧
      decodeRow bytes = .ok [.text "note", .null]) ∧
    encodeRow [.null] = .ok [1, 0, 0] := by
  refine ⟨row_format.1 _ (by decide) ?_, row_format.2 [1, 0, 0] _ (by decide) (by decide)⟩
  intro v hv
  rcases List.mem_cons.1 hv with rfl | hv
  · decide
  · cases List.mem_singleton.1 hv
    decide

end Edb.Types
