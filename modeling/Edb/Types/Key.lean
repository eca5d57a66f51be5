import Mathlib.Algebra.GroupWithZero.Nat
import Mathlib.Algebra.Ring.Int.Defs
import Edb.Lib.Lex
import Edb.Types.Value

/-!
# The order-preserving key encoding

Every component is a tag byte that fixes its rank and a payload that is prefix-free, so a
composite key is the plain concatenation of its components. The main result says that the
bytewise order of two encoded keys is the lexicographic logical order of their components,
and that decoding gives the components back up to logical equality.
-/

namespace Edb.Types

open Edb.Lib

/-- How stored key bytes can be malformed. -/
inductive KeyCorruption where
  | truncated
  | badTag (tag : UInt8)
  | badBool (byte : UInt8)
  | badEscape (escape : UInt8)
  | invalidUtf8
  deriving DecidableEq, Repr

/-- How stored row bytes can be malformed. -/
inductive RowCorruption where
  | truncated
  | badTag (tag : UInt8)
  | badBool (byte : UInt8)
  | trailingBytes (count : Nat)
  | invalidUtf8
  deriving DecidableEq, Repr

/-- How wire bytes can fail to be well-formed MessagePack. -/
inductive MsgpackError where
  | truncated
  | trailingBytes (count : Nat)
  | depthExceeded (max : Nat)
  | reserved
  | extNotAllowed
  | invalidUtf8
  | intOutOfRange (found : Nat)
  deriving DecidableEq, Repr

/-- Errors of the type and encoding layer. -/
inductive TypeError where
  | keyCorrupt (kind : KeyCorruption)
  | rowCorrupt (kind : RowCorruption)
  | msgpack (kind : MsgpackError)
  | notKeyable (kind : TypeKind)
  | wrongWireType (expected : TypeKind) (found : String)
  | badUuid
  | tooManyColumns (count max : Nat)
  | valueTooLarge (len : Nat)
  deriving DecidableEq, Repr

/-! ## Encoding -/

def tagNull : UInt8 := 0x01
def tagBool : UInt8 := 0x02
def tagI64 : UInt8 := 0x03
def tagF64 : UInt8 := 0x04
def tagText : UInt8 := 0x05
def tagBlob : UInt8 := 0x06
def tagUuid : UInt8 := 0x07
def tagTimestamp : UInt8 := 0x08

/-- `u64::to_be_bytes`. -/
def toBeBytes (w : UInt64) : Bytes := (Lex.digits 256 8 w.toNat).map UInt8.ofNat

/-- `u64::from_be_bytes`. -/
def fromBeBytes (bytes : Bytes) : UInt64 :=
  UInt64.ofNat (Lex.ofDigits 256 (bytes.map UInt8.toNat))

/-- Map an `i64` to a word whose unsigned order is the signed order: flip the sign bit. -/
def flipSign (v : Int64) : UInt64 := v.toUInt64 ^^^ ((1 : UInt64) <<< 63)

def unflipSign (word : UInt64) : Int64 := (word ^^^ ((1 : UInt64) <<< 63)).toInt64

/-- Escape variable-length bytes: every `0x00` becomes `0x00 0xFF`, and the value ends with
`0x00 0x00`. -/
def escapeInto (out bytes : Bytes) : Bytes :=
  bytes.foldl (fun out b => if b = 0x00 then (out ++ [b]) ++ [0xFF] else out ++ [b]) out
    ++ [0x00, 0x00]

/-- Append the encoding of one component. -/
def encodeInto (out : Bytes) : Value → Except TypeError Bytes
  | .null => .ok (out ++ [tagNull])
  | .bool b => .ok (out ++ [tagBool] ++ [b.toUInt8])
  | .i64 v => .ok (out ++ [tagI64] ++ toBeBytes (flipSign v))
  | .f64 v => .ok (out ++ [tagF64] ++ toBeBytes v.totalKey)
  | .text s => .ok (escapeInto (out ++ [tagText]) (asBytes s))
  | .blob b => .ok (escapeInto (out ++ [tagBlob]) b)
  | .uuid u => .ok (out ++ [tagUuid] ++ u.toList)
  | .timestamp v => .ok (out ++ [tagTimestamp] ++ toBeBytes (flipSign v))
  | .json _ => .error (.notKeyable .json)

/-- Encode a composite key. -/
def encodeKey (components : List Value) : Except TypeError Bytes :=
  components.foldlM encodeInto []

/-! ## Decoding -/

def keyCorrupt {α : Type} (kind : KeyCorruption) : Except TypeError α :=
  .error (.keyCorrupt kind)

/-- The value, or the corruption its absence is (`ok_or_else`). -/
def orCorrupt {α : Type} (kind : KeyCorruption) : Option α → Except TypeError α
  | none => keyCorrupt kind
  | some a => .ok a

/-- Split a word off the front. -/
def takeU64 (rest : Bytes) : Except TypeError (UInt64 × Bytes) :=
  if rest.length < 8 then keyCorrupt .truncated
  else .ok (fromBeBytes (rest.take 8), rest.drop 8)

/-- Split an array of `n` bytes off the front, when there are that many. -/
def splitArray (n : Nat) (rest : Bytes) : Option (Vector UInt8 n × Bytes) :=
  if h : n ≤ rest.length then
    some (⟨(rest.take n).toArray, by simpa using h⟩, rest.drop n)
  else none

theorem splitArray_append {n : Nat} (u : Vector UInt8 n) (rest : Bytes) :
    splitArray n (u.toList ++ rest) = some (u, rest) := by
  have hlen : u.toList.length = n := by simp
  have hle : n ≤ (u.toList ++ rest).length := by simp
  rw [splitArray, dif_pos hle]
  congr 2
  · apply Vector.toList_inj.1
    show (List.take n (u.toList ++ rest)).toArray.toList = _
    rw [List.take_left' hlen]
  · exact List.drop_left' hlen

theorem splitArray_eq_some {n : Nat} {rest rest' : Bytes} {u : Vector UInt8 n}
    (h : splitArray n rest = some (u, rest')) : rest = u.toList ++ rest' := by
  rw [splitArray] at h
  split at h
  · cases h
    exact (List.take_append_drop n rest).symm
  · cases h

/-- Read escaped bytes up to their terminator. -/
def unescape (out : Bytes) : Bytes → Except TypeError (Bytes × Bytes)
  | [] => keyCorrupt .truncated
  | [b] => if b ≠ 0x00 then unescape (out ++ [b]) [] else keyCorrupt .truncated
  | b :: e :: after =>
    if b ≠ 0x00 then unescape (out ++ [b]) (e :: after)
    else if e = 0x00 then .ok (out, after)
    else if e = 0xFF then unescape (out ++ [0x00]) after
    else keyCorrupt (.badEscape e)

/-- `String::from_utf8`. -/
def fromUtf8 (bytes : Bytes) : Option String := String.fromUTF8? ⟨bytes.toArray⟩

/-- Decode one component after its tag. -/
def decodeOne (tag : UInt8) (rest : Bytes) : Except TypeError (Value × Bytes) :=
  if tag = tagNull then .ok (.null, rest)
  else if tag = tagBool then
    match rest with
    | [] => keyCorrupt .truncated
    | byte :: rest =>
      if byte = 0 then .ok (.bool false, rest)
      else if byte = 1 then .ok (.bool true, rest)
      else keyCorrupt (.badBool byte)
  else if tag = tagI64 then do
    let (word, rest) ← takeU64 rest
    pure (.i64 (unflipSign word), rest)
  else if tag = tagF64 then do
    let (word, rest) ← takeU64 rest
    pure (.f64 (F64.fromTotalKey word), rest)
  else if tag = tagText then do
    let (bytes, rest) ← unescape [] rest
    let text ← orCorrupt .invalidUtf8 (fromUtf8 bytes)
    pure (.text text, rest)
  else if tag = tagBlob then do
    let (bytes, rest) ← unescape [] rest
    pure (.blob bytes, rest)
  else if tag = tagUuid then do
    let (uuid, rest) ← orCorrupt .truncated (splitArray 16 rest)
    pure (.uuid uuid, rest)
  else if tag = tagTimestamp then do
    let (word, rest) ← takeU64 rest
    pure (.timestamp (unflipSign word), rest)
  else keyCorrupt (.badTag tag)

/-- Decode component after component. Each takes at least its tag byte, so as many rounds as
there are bytes are enough. -/
def decodeFrom : Nat → List Value → Bytes → Except TypeError (List Value)
  | _, components, [] => .ok components
  | 0, components, _ :: _ => .ok components
  | fuel + 1, components, tag :: afterTag => do
    let (value, afterValue) ← decodeOne tag afterTag
    decodeFrom fuel (components ++ [value]) afterValue

/-- Decode a key produced by `encodeKey` back into its components. -/
def decodeKey (bytes : Bytes) : Except TypeError (List Value) :=
  decodeFrom bytes.length [] bytes

/-! ## The encoding of one component -/

/-- A component that can be part of a key: anything but a json document. -/
def Value.Keyable (v : Value) : Prop := v.kind ≠ some .json

instance (v : Value) : Decidable v.Keyable := inferInstanceAs (Decidable (_ ≠ _))

/-- The tag of a keyable component; the tags run with the ranks. -/
def keyTag (v : Value) : UInt8 := UInt8.ofNat (v.rank + 1)

/-- What follows the tag. -/
def keyBody : Value → Bytes
  | .null => []
  | .bool b => [b.toUInt8]
  | .i64 v => toBeBytes (flipSign v)
  | .f64 v => toBeBytes v.totalKey
  | .text s => Lex.escape 0x00 0xFF (asBytes s)
  | .blob b => Lex.escape 0x00 0xFF b
  | .uuid u => u.toList
  | .timestamp v => toBeBytes (flipSign v)
  | .json _ => []

/-- The bytes one component adds to a key. -/
def component (v : Value) : Bytes := keyTag v :: keyBody v

theorem component_ne_nil (v : Value) : component v ≠ [] := by simp [component]

theorem escapeInto_eq (out bytes : Bytes) :
    escapeInto out bytes = out ++ Lex.escape 0x00 0xFF bytes := by
  unfold escapeInto
  induction bytes generalizing out with
  | nil => rfl
  | cons b bytes ih =>
    rw [List.foldl_cons, ih]
    by_cases hb : b = 0x00
    · simp [hb, Lex.escape]
    · simp [hb, Lex.escape]

/-- Encoding a keyable component appends its bytes. -/
theorem encodeInto_eq (out : Bytes) {v : Value} (h : v.Keyable) :
    encodeInto out v = .ok (out ++ component v) := by
  cases v with
  | json b => exact absurd rfl h
  | text s => simp [encodeInto, escapeInto_eq, component, keyBody, keyTag, Value.rank, tagText]
  | blob b => simp [encodeInto, escapeInto_eq, component, keyBody, keyTag, Value.rank, tagBlob]
  | _ => simp [encodeInto, component, keyBody, keyTag, Value.rank, tagNull, tagBool, tagI64,
      tagF64, tagUuid, tagTimestamp]

/-- A key is the concatenation of its components. -/
theorem encodeKey_eq {components : List Value} (h : ∀ v ∈ components, v.Keyable) :
    encodeKey components = .ok (components.flatMap component) := by
  have hfold : ∀ out, components.foldlM encodeInto out
      = .ok (out ++ components.flatMap component) := by
    induction components with
    | nil => simp [pure, Except.pure]
    | cons v components ih =>
      intro out
      rw [List.foldlM_cons, encodeInto_eq out (h v (by simp))]
      show components.foldlM encodeInto (out ++ component v) = _
      rw [ih (fun w hw => h w (List.mem_cons_of_mem _ hw)), List.flatMap_cons, List.append_assoc]
  exact hfold []

/-! ## Order -/

theorem cmpByte_eq {a b : UInt8} : cmpByte a b = .eq ↔ a = b := by
  rw [cmpByte, Nat.compare_eq_eq, UInt8.toNat_inj]

theorem cmpBytes_self (a : Bytes) : cmpBytes a a = .eq := by
  induction a with
  | nil => rfl
  | cons b a ih =>
    show (b :: a).compareLex cmpByte (b :: a) = .eq
    rw [Lex.compareLex_cons_of_eq (cmpByte_eq.2 rfl)]
    exact ih

/-- Only equal byte strings compare equal. -/
theorem cmpBytes_eq {a b : Bytes} : cmpBytes a b = .eq ↔ a = b := by
  constructor
  · intro h
    induction a generalizing b with
    | nil =>
      cases b with
      | nil => rfl
      | cons d b => cases h
    | cons c a ih =>
      cases b with
      | nil => cases h
      | cons d b =>
        rw [cmpBytes, List.compareLex_cons_cons, Ordering.then_eq_eq] at h
        rw [cmpByte_eq.1 h.1, ih h.2]
  · intro h
    rw [h]
    exact cmpBytes_self b

/-- Bytes that compare less are less. -/
theorem lt_of_cmpBytes {a b : Bytes} (h : cmpBytes a b = .lt) : a < b := by
  induction a generalizing b with
  | nil =>
    cases b with
    | nil => cases h
    | cons d b => exact List.nil_lt_cons d b
  | cons c a ih =>
    cases b with
    | nil => cases h
    | cons d b =>
      rw [cmpBytes, List.compareLex_cons_cons] at h
      rcases lt_trichotomy c.toNat d.toNat with hcd | hcd | hcd
      · exact List.cons_lt_cons_iff.2 (.inl (UInt8.lt_iff_toNat_lt.2 hcd))
      · rw [cmpByte, Nat.compare_eq_eq.2 hcd] at h
        exact List.cons_lt_cons_iff.2 (.inr ⟨UInt8.toNat_inj.1 hcd, ih h⟩)
      · rw [cmpByte, Nat.compare_eq_gt.2 hcd] at h
        cases h

/-- Words compare as their big-endian bytes, before anything that follows. -/
theorem toBeBytes_compare (a b : UInt64) (s t : Bytes) :
    (toBeBytes a ++ s).compareLex cmpByte (toBeBytes b ++ t)
      = (compare a.toNat b.toNat).then (s.compareLex cmpByte t) := by
  have hbyte : ∀ c d, c < 256 → d < 256 →
      cmpByte (UInt8.ofNat c) (UInt8.ofNat d) = compare c d := by
    intro c d hc hd
    rw [cmpByte, UInt8.toNat_ofNat_of_lt' hc, UInt8.toNat_ofNat_of_lt' hd]
  have hlt : ∀ w : UInt64, w.toNat < 256 ^ 8 := fun w => w.toNat_lt
  rw [Lex.compareLex_append (by simp [toBeBytes]), toBeBytes, toBeBytes,
    Lex.compareLex_digits hbyte 8 (hlt a) (hlt b)]

theorem toNat_flipSign (v : Int64) : ((flipSign v).toNat : Int) = v.toInt + 2 ^ 63 := by
  have hxor : (flipSign v).toNat = v.toUInt64.toNat ^^^ 2 ^ 63 := by
    rw [flipSign, UInt64.toNat_xor]
    rfl
  have hdiv := Nat.xor_div_two_pow (a := v.toUInt64.toNat) (b := 2 ^ 63) (n := 63)
  have hmod := Nat.xor_mod_two_pow (a := v.toUInt64.toNat) (b := 2 ^ 63) (n := 63)
  have hlt : v.toUInt64.toNat < 2 ^ 64 := v.toUInt64.toNat_lt
  have hint : v.toInt = if 2 * v.toUInt64.toNat < 2 ^ 64 then (v.toUInt64.toNat : Int)
      else (v.toUInt64.toNat : Int) - (2 ^ 64 : Nat) := BitVec.toInt_eq_toNat_cond v.toBitVec
  rw [hxor, hint]
  generalize v.toUInt64.toNat = x at *
  rw [Nat.mod_self, Nat.xor_zero] at hmod
  rcases Nat.lt_or_ge x (2 ^ 63) with h | h
  · have h0 : x / 2 ^ 63 = 0 := Nat.div_eq_of_lt h
    rw [h0] at hdiv
    have h1 : (x ^^^ 2 ^ 63) / 2 ^ 63 = 1 := hdiv
    split <;> omega
  · have h0 : x / 2 ^ 63 = 1 := by omega
    rw [h0] at hdiv
    have h1 : (x ^^^ 2 ^ 63) / 2 ^ 63 = 0 := hdiv
    split <;> omega

/-- Flipping the sign bit turns the signed order into the unsigned one. -/
theorem flipSign_compare (a b : Int64) :
    compare (flipSign a).toNat (flipSign b).toNat = compare a.toInt b.toInt := by
  have ha := toNat_flipSign a
  have hb := toNat_flipSign b
  rcases Int.lt_trichotomy a.toInt b.toInt with h | h | h
  · rw [Nat.compare_eq_lt.2 (by omega), Int.compare_eq_lt.2 h]
  · rw [Nat.compare_eq_eq.2 (by omega), Int.compare_eq_eq.2 h]
  · rw [Nat.compare_eq_gt.2 (by omega), Int.compare_eq_gt.2 h]

theorem escape_compare (a b s t : Bytes) :
    (Lex.escape 0x00 0xFF a ++ s).compareLex cmpByte (Lex.escape 0x00 0xFF b ++ t)
      = (cmpBytes a b).then (s.compareLex cmpByte t) := by
  have hpos : ∀ x : UInt8, x ≠ 0x00 → 0 < x.toNat := by
    intro x hx
    rcases Nat.eq_zero_or_pos x.toNat with h | h
    · exact absurd (UInt8.toNat_inj.1 h) hx
    · exact h
  have hlt : ∀ x : UInt8, x ≠ 0x00 → cmpByte 0x00 x = .lt :=
    fun x hx => Nat.compare_eq_lt.2 (hpos x hx)
  have hgt : ∀ x : UInt8, x ≠ 0x00 → cmpByte x 0x00 = .gt :=
    fun x hx => Nat.compare_eq_gt.2 (hpos x hx)
  have hesc : (0xFF : UInt8) ≠ 0x00 := by decide
  exact Lex.escape_embeds (fun _ _ => cmpByte_eq) hlt hgt hesc a b trivial trivial s t

/-- Payloads of one variant compare as the values, before anything that follows. -/
theorem keyBody_compare {a b : Value} (ha : a.Keyable) (hb : b.Keyable)
    (h : a.rank = b.rank) (s t : Bytes) :
    (keyBody a ++ s).compareLex cmpByte (keyBody b ++ t)
      = (a.logicalCmp b).then (s.compareLex cmpByte t) := by
  cases a with
  | null =>
    cases b with
    | null => rfl
    | _ => cases h
  | bool a =>
    cases b with
    | bool b => cases a <;> cases b <;> rfl
    | _ => cases h
  | i64 a =>
    cases b with
    | i64 b =>
      -- with the sign bit flipped, big-endian bytes are in the order of the signed numbers
      rw [keyBody, keyBody, toBeBytes_compare, flipSign_compare]
      rfl
    | _ => cases h
  | f64 a =>
    cases b with
    | f64 b => exact toBeBytes_compare _ _ s t
    | _ => cases h
  | text a =>
    cases b with
    | text b => exact escape_compare _ _ s t
    | _ => cases h
  | blob a =>
    cases b with
    | blob b => exact escape_compare _ _ s t
    | _ => cases h
  | uuid a =>
    cases b with
    | uuid b =>
      have hlen : a.toList.length = b.toList.length := by simp
      exact Lex.compareLex_append hlen s t
    | _ => cases h
  | timestamp a =>
    cases b with
    | timestamp b =>
      rw [keyBody, keyBody, toBeBytes_compare, flipSign_compare]
      rfl
    | _ => cases h
  | json a => exact absurd rfl ha

theorem toNat_keyTag (v : Value) : (keyTag v).toNat = v.rank + 1 := by
  cases v <;> rfl

theorem keyTag_compare (a b : Value) : cmpByte (keyTag a) (keyTag b) = compare a.rank b.rank := by
  rw [cmpByte, toNat_keyTag, toNat_keyTag]
  rcases Nat.lt_trichotomy a.rank b.rank with h | h | h
  · rw [Nat.compare_eq_lt.2 h, Nat.compare_eq_lt.2 (by omega)]
  · rw [Nat.compare_eq_eq.2 h, Nat.compare_eq_eq.2 (by omega)]
  · rw [Nat.compare_eq_gt.2 h, Nat.compare_eq_gt.2 (by omega)]

/-- The bytes of one component decide its comparison on the spot. -/
theorem component_embeds :
    Lex.Embeds cmpByte Value.logicalCmp component Value.Keyable := by
  intro a b ha hb s t
  show (keyTag a :: (keyBody a ++ s)).compareLex cmpByte (keyTag b :: (keyBody b ++ t)) = _
  by_cases h : a.rank = b.rank
  · have heq : cmpByte (keyTag a) (keyTag b) = .eq := by
      rw [keyTag_compare, Nat.compare_eq_eq.2 h]
    rw [Lex.compareLex_cons_of_eq heq, keyBody_compare ha hb h]
  · have hne : cmpByte (keyTag a) (keyTag b) ≠ .eq := by
      rw [keyTag_compare]
      exact fun hc => h (Nat.compare_eq_eq.1 hc)
    rw [Lex.compareLex_cons_of_ne hne, keyTag_compare, Value.logicalCmp_of_rank_ne h]
    rcases Nat.lt_or_gt_of_ne h with hlt | hgt
    · rw [Nat.compare_eq_lt.2 hlt]
      rfl
    · rw [Nat.compare_eq_gt.2 hgt]
      rfl

/-! ## Decoding what was encoded -/

theorem fromBeBytes_toBeBytes (w : UInt64) : fromBeBytes (toBeBytes w) = w := by
  have hlt : w.toNat < 256 ^ 8 := w.toNat_lt
  have hmap : (toBeBytes w).map UInt8.toNat = Lex.digits 256 8 w.toNat := by
    have hbyte : ∀ d ∈ Lex.digits 256 8 w.toNat, (UInt8.toNat ∘ UInt8.ofNat) d = d :=
      fun d hd => UInt8.toNat_ofNat_of_lt' (Lex.digits_lt 8 hlt d hd)
    rw [toBeBytes, List.map_map, List.map_congr_left hbyte, List.map_id']
  rw [fromBeBytes, hmap, Lex.ofDigits_digits 8 hlt, UInt64.ofNat_toNat]

theorem takeU64_toBeBytes (w : UInt64) (rest : Bytes) :
    takeU64 (toBeBytes w ++ rest) = .ok (w, rest) := by
  have hlen : (toBeBytes w).length = 8 := by simp [toBeBytes]
  have hshort : ¬ (toBeBytes w ++ rest).length < 8 := by simp [hlen]
  rw [takeU64, if_neg hshort, ← hlen, List.take_left, List.drop_left, fromBeBytes_toBeBytes]

theorem unflipSign_flipSign (v : Int64) : unflipSign (flipSign v) = v := by
  rw [unflipSign, flipSign, UInt64.xor_assoc, UInt64.xor_self, UInt64.xor_zero,
    Int64.toInt64_toUInt64]

/-- Reading stops at the terminator and undoes the escapes before it. -/
theorem unescape_escape (out bytes rest : Bytes) :
    unescape out (Lex.escape 0x00 0xFF bytes ++ rest) = .ok (out ++ bytes, rest) := by
  induction bytes generalizing out with
  | nil => simp [Lex.escape, unescape]
  | cons b bytes ih =>
    by_cases hb : b = 0x00
    · subst hb
      rw [Lex.escape_cons_self, List.cons_append, List.cons_append, unescape]
      simp [ih]
    · rw [Lex.escape_cons_of_ne _ _ hb, List.cons_append]
      -- an escaped string is never empty, so the byte read here is not the last one
      obtain ⟨c, cs, hc⟩ := List.exists_cons_of_ne_nil (Lex.escape_ne_nil 0x00 0xFF bytes)
      have ih' := ih (out ++ [b])
      rw [hc, List.cons_append] at ih' ⊢
      rw [unescape, if_pos hb, ih', List.append_assoc]
      rfl

theorem fromUtf8_asBytes (s : String) : fromUtf8 (asBytes s) = some s := by
  have harr : (⟨(asBytes s).toArray⟩ : ByteArray) = s.toByteArray := rfl
  rw [fromUtf8, harr, String.fromUTF8?, dif_pos s.isValidUTF8]
  rfl

theorem asBytes_fromUtf8 {bytes : Bytes} {s : String} (h : fromUtf8 bytes = some s) :
    asBytes s = bytes := by
  rw [fromUtf8, String.fromUTF8?] at h
  split at h
  · cases h
    rfl
  · cases h

/-- The value a key gives back: every NaN becomes the one `f64::NAN`. -/
def Value.canonical : Value → Value
  | .f64 v => .f64 (if v.isNan then F64.nan else v)
  | v => v

theorem Value.logicalCmp_self (v : Value) : v.logicalCmp v = .eq := by
  cases v with
  | null => rfl
  | bool b => exact Nat.compare_eq_eq.2 rfl
  | i64 v => exact Int.compare_eq_eq.2 rfl
  | f64 v => exact Nat.compare_eq_eq.2 rfl
  | text s => exact cmpBytes_self _
  | blob b => exact cmpBytes_self _
  | uuid u => exact cmpBytes_self _
  | json b => exact cmpBytes_self _
  | timestamp v => exact Int.compare_eq_eq.2 rfl

theorem Value.eqv_refl (v : Value) : v.eqv v = true := by
  rw [eqv, logicalCmp_self]
  rfl

theorem Value.logicalCmp_canonical (v : Value) : v.canonical.logicalCmp v = .eq := by
  cases v with
  | f64 v =>
    have hkey := F64.totalKey_fromTotalKey_totalKey v
    rw [F64.fromTotalKey_totalKey] at hkey
    show compare (F64.totalKey _).toNat v.totalKey.toNat = .eq
    rw [hkey]
    exact Nat.compare_eq_eq.2 rfl
  | _ => exact Value.logicalCmp_self _

/-- One component is read back with its own tag, whatever follows it. -/
theorem decodeOne_component {v : Value} (h : v.Keyable) (rest : Bytes) :
    decodeOne (keyTag v) (keyBody v ++ rest) = .ok (v.canonical, rest) := by
  cases v with
  | null => rfl
  | bool b => cases b <;> rfl
  | i64 v =>
    show (takeU64 (toBeBytes (flipSign v) ++ rest) >>= _) = _
    rw [takeU64_toBeBytes]
    show Except.ok (Value.i64 (unflipSign (flipSign v)), rest) = _
    rw [unflipSign_flipSign]
    rfl
  | f64 v =>
    show (takeU64 (toBeBytes v.totalKey ++ rest) >>= _) = _
    rw [takeU64_toBeBytes]
    show Except.ok (Value.f64 (F64.fromTotalKey v.totalKey), rest) = _
    -- a NaN comes back as the canonical one
    rw [F64.fromTotalKey_totalKey]
    rfl
  | text s =>
    show (unescape [] (Lex.escape 0x00 0xFF (asBytes s) ++ rest) >>= _) = _
    rw [unescape_escape]
    show (orCorrupt .invalidUtf8 (fromUtf8 ([] ++ asBytes s)) >>= _) = _
    rw [List.nil_append, fromUtf8_asBytes]
    rfl
  | blob b =>
    show (unescape [] (Lex.escape 0x00 0xFF b ++ rest) >>= _) = _
    rw [unescape_escape]
    rfl
  | uuid u =>
    show (orCorrupt .truncated (splitArray 16 (u.toList ++ rest)) >>= _) = _
    rw [splitArray_append]
    rfl
  | timestamp v =>
    show (takeU64 (toBeBytes (flipSign v) ++ rest) >>= _) = _
    rw [takeU64_toBeBytes]
    show Except.ok (Value.timestamp (unflipSign (flipSign v)), rest) = _
    rw [unflipSign_flipSign]
    rfl
  | json b => exact absurd rfl h

/-- Decoding walks the components of a key one after the other. -/
theorem decodeFrom_flatMap {components : List Value} (h : ∀ v ∈ components, v.Keyable) :
    ∀ (fuel : Nat) (done : List Value), (components.flatMap component).length ≤ fuel →
      decodeFrom fuel done (components.flatMap component)
        = .ok (done ++ components.map Value.canonical) := by
  induction components with
  | nil =>
    intro fuel done _
    cases fuel <;> simp [decodeFrom]
  | cons v components ih =>
    intro fuel done hfuel
    rw [List.flatMap_cons] at hfuel ⊢
    cases fuel with
    | zero => simp [component] at hfuel
    | succ fuel =>
      have hv := decodeOne_component (h v (by simp)) (components.flatMap component)
      have hle : (components.flatMap component).length ≤ fuel := by
        simp only [component, List.length_append, List.length_cons] at hfuel
        omega
      show (decodeOne (keyTag v) (keyBody v ++ _) >>= _) = _
      rw [hv]
      show decodeFrom fuel (done ++ [v.canonical]) _ = _
      rw [ih (fun w hw => h w (List.mem_cons_of_mem _ hw)) fuel _ hle]
      simp

/-- Decoding an encoded key gives its components, NaNs made canonical. -/
theorem decodeKey_flatMap {components : List Value} (h : ∀ v ∈ components, v.Keyable) :
    decodeKey (components.flatMap component) = .ok (components.map Value.canonical) :=
  decodeFrom_flatMap h _ [] (Nat.le_refl _)

theorem compareLex_canonical (components : List Value) :
    (components.map Value.canonical).compareLex Value.logicalCmp components = .eq := by
  induction components with
  | nil => rfl
  | cons v components ih =>
    rw [List.map_cons, Lex.compareLex_cons_of_eq (Value.logicalCmp_canonical v)]
    exact ih

/-! ## The whole key -/

/-- The bytewise order of encoded keys is the lexicographic logical order of their
components, decoding gives the components back up to logical equality, and two keys have
the same bytes exactly when their components are logically equal. -/
theorem encodeKey_order_preserving (a b : List Value)
    (ha : ∀ v ∈ a, v.Keyable) (hb : ∀ v ∈ b, v.Keyable) :
    ∃ ea eb, encodeKey a = .ok ea ∧ encodeKey b = .ok eb ∧
      cmpBytes ea eb = a.compareLex Value.logicalCmp b ∧
      (∃ d, decodeKey ea = .ok d ∧ d.compareLex Value.logicalCmp a = .eq) ∧
      (ea = eb ↔ a.compareLex Value.logicalCmp b = .eq) := by
  have hcmp : cmpBytes (a.flatMap component) (b.flatMap component)
      = a.compareLex Value.logicalCmp b :=
    component_embeds.compareLex_flatMap (fun v _ => component_ne_nil v) ha hb
  refine ⟨a.flatMap component, b.flatMap component, encodeKey_eq ha, encodeKey_eq hb, hcmp, ?_, ?_⟩
  · exact ⟨a.map Value.canonical, decodeKey_flatMap ha, compareLex_canonical a⟩
  · rw [← hcmp, cmpBytes_eq]

/-- A composite key whose text holds a zero byte, beside one whose shorter text is followed
by the greatest float. -/
theorem encodeKey_order_preserving_nested :
    ∃ ea eb, encodeKey [.text "a\x00", .null] = .ok ea ∧
      encodeKey [.text "a", .f64 F64.nan] = .ok eb ∧
      cmpBytes ea eb = .gt ∧
      (∃ d, decodeKey ea = .ok d ∧
        d.compareLex Value.logicalCmp [.text "a\x00", .null] = .eq) ∧
      (ea = eb ↔ False) := by
  obtain ⟨ea, eb, hea, heb, hcmp, hdec, hinj⟩ :=
    encodeKey_order_preserving [.text "a\x00", .null] [.text "a", .f64 F64.nan] (by decide)
      (by decide)
  have hgt : [Value.text "a\x00", .null].compareLex Value.logicalCmp [.text "a", .f64 F64.nan]
      = .gt := by decide
  rw [hgt] at hcmp hinj
  exact ⟨ea, eb, hea, heb, hcmp, hdec, hinj.trans (by decide)⟩

end Edb.Types
