import Edb.Common.Basic
import Mathlib.Algebra.GroupWithZero.Nat

/-!
# Values

The value model and the engine's logical total order. Floats are kept as their bit
patterns: the order, the encodings and the equality of values are functions of the bits.
-/

namespace Edb.Types

/-- The schema-level kind of a value. `null` is not a kind. -/
inductive TypeKind where
  | bool
  | i64
  | f64
  | text
  | blob
  | uuid
  | json
  | timestamp
  deriving DecidableEq, Repr

/-- A stable lowercase name. -/
def TypeKind.asStr : TypeKind → String
  | bool => "bool"
  | i64 => "i64"
  | f64 => "f64"
  | text => "text"
  | blob => "blob"
  | uuid => "uuid"
  | json => "json"
  | timestamp => "timestamp"

/-- An IEEE-754 double, as its bit pattern. -/
structure F64 where
  bits : UInt64
  deriving DecidableEq, Repr

namespace F64

/-- The one quiet NaN the total order maps every NaN to (`f64::NAN`). -/
def nan : F64 := ⟨0x7FF8000000000000⟩

/-- All exponent bits set and a non-zero fraction. -/
def isNan (f : F64) : Bool := decide (0x7FF0000000000000 < f.bits &&& 0x7FFFFFFFFFFFFFFF)

/-- Map a float to a word whose unsigned order is the IEEE-754 total order, every NaN first
made the one positive quiet NaN. -/
def totalKey (f : F64) : UInt64 :=
  let bits := if f.isNan then nan.bits else f.bits
  if bits >>> 63 = 0 then bits ||| ((1 : UInt64) <<< 63) else ~~~bits

/-- Invert `totalKey`. -/
def fromTotalKey (key : UInt64) : F64 :=
  ⟨if key >>> 63 = 1 then key &&& ~~~((1 : UInt64) <<< 63) else ~~~key⟩

/-! ### The bits behind the two maps -/

theorem toNat_shiftRight_top (b : UInt64) : (b >>> 63).toNat = b.toNat / 2 ^ 63 := by
  simp [UInt64.toNat_shiftRight, Nat.shiftRight_eq_div_pow]

theorem toNat_or_top {b : UInt64} (h : b.toNat < 2 ^ 63) :
    (b ||| ((1 : UInt64) <<< 63)).toNat = 2 ^ 63 + b.toNat := by
  have h1 : ((1 : UInt64) <<< 63).toNat = 2 ^ 63 * 1 := by decide
  rw [UInt64.toNat_or, h1, Nat.or_comm, ← Nat.two_pow_add_eq_or_of_lt h, Nat.mul_one]

theorem toNat_and_low (b : UInt64) :
    (b &&& ~~~((1 : UInt64) <<< 63)).toNat = b.toNat % 2 ^ 63 := by
  have h1 : (~~~((1 : UInt64) <<< 63)).toNat = 2 ^ 63 - 1 := by decide
  rw [UInt64.toNat_and, h1, Nat.and_two_pow_sub_one_eq_mod]

theorem shiftRight_top_eq_zero {b : UInt64} : b >>> 63 = 0 ↔ b.toNat < 2 ^ 63 := by
  rw [← UInt64.toNat_inj, toNat_shiftRight_top]
  show b.toNat / 2 ^ 63 = 0 ↔ _
  omega

theorem totalKey_of_isNan {f : F64} (h : f.isNan) : f.totalKey = nan.totalKey := by
  simp only [totalKey, h, if_true]
  rfl

/-- The key of a float determines it up to NaN: every NaN comes back as the one `f64::NAN`,
every other float as itself. -/
theorem fromTotalKey_totalKey (f : F64) :
    fromTotalKey f.totalKey = if f.isNan then nan else f := by
  by_cases hn : f.isNan
  · rw [totalKey_of_isNan hn, if_pos hn]
    decide
  · rw [if_neg hn]
    simp only [totalKey, hn, Bool.false_eq_true, if_false]
    by_cases hs : f.bits >>> 63 = 0
    · -- a positive float: the sign bit is set, then cleared
      rw [if_pos hs]
      have hlt := shiftRight_top_eq_zero.1 hs
      have hor := toNat_or_top hlt
      have hone : (f.bits ||| ((1 : UInt64) <<< 63)) >>> 63 = 1 := by
        rw [← UInt64.toNat_inj, toNat_shiftRight_top, hor]
        show _ = 1
        omega
      have hbits : (f.bits ||| ((1 : UInt64) <<< 63)) &&& ~~~((1 : UInt64) <<< 63) = f.bits := by
        rw [← UInt64.toNat_inj, toNat_and_low, hor]
        omega
      rw [fromTotalKey, if_pos hone, hbits]
    · -- a negative float: all bits are inverted, twice
      rw [if_neg hs]
      have hle : ¬ f.bits.toNat < 2 ^ 63 := fun h => hs (shiftRight_top_eq_zero.2 h)
      have hzero : ¬ (~~~f.bits) >>> 63 = 1 := by
        rw [← UInt64.toNat_inj, toNat_shiftRight_top, UInt64.toNat_not]
        show ¬ (UInt64.size - 1 - f.bits.toNat) / 2 ^ 63 = 1
        have hsize : UInt64.size = 2 ^ 64 := rfl
        omega
      rw [fromTotalKey, if_neg hzero, UInt64.not_not]

/-- Coming back from its key does not change a float's place in the order. -/
theorem totalKey_fromTotalKey_totalKey (f : F64) :
    (fromTotalKey f.totalKey).totalKey = f.totalKey := by
  rw [fromTotalKey_totalKey]
  by_cases hn : f.isNan
  · rw [if_pos hn, totalKey_of_isNan hn]
  · rw [if_neg hn]

end F64

/-- One engine value. A `json` value holds the MessagePack bytes of its document. -/
inductive Value where
  | null
  | bool (b : Bool)
  | i64 (v : Int64)
  | f64 (v : F64)
  | text (s : String)
  | blob (b : Bytes)
  | uuid (u : Vector UInt8 16)
  | json (b : Bytes)
  | timestamp (v : Int64)
  deriving DecidableEq, Repr

/-- The UTF-8 bytes of a text. -/
def asBytes (s : String) : Bytes := s.toByteArray.data.toList

/-- The order of single bytes. -/
def cmpByte (a b : UInt8) : Ordering := compare a.toNat b.toNat

/-- The bytewise order of byte strings, a proper prefix first. -/
def cmpBytes (a b : Bytes) : Ordering := a.compareLex cmpByte b

namespace Value

/-- The kind of a value, none for `null`. -/
def kind : Value → Option TypeKind
  | null => none
  | bool _ => some .bool
  | i64 _ => some .i64
  | f64 _ => some .f64
  | text _ => some .text
  | blob _ => some .blob
  | uuid _ => some .uuid
  | json _ => some .json
  | timestamp _ => some .timestamp

/-- Whether a value is NULL. -/
def isNull : Value → Bool
  | null => true
  | _ => false

@[simp] theorem kind_eq_none {v : Value} : v.kind = none ↔ v = null := by
  cases v <;> simp [kind]

@[simp] theorem isNull_iff {v : Value} : v.isNull = true ↔ v = null := by
  cases v <;> simp [isNull]

/-- Rank of a variant in the cross-type order; `null` first. -/
def rank : Value → Nat
  | null => 0
  | bool _ => 1
  | i64 _ => 2
  | f64 _ => 3
  | text _ => 4
  | blob _ => 5
  | uuid _ => 6
  | timestamp _ => 7
  | json _ => 8

/-- The logical total order over values. -/
def logicalCmp : Value → Value → Ordering
  | null, null => .eq
  | bool a, bool b => compare a.toNat b.toNat
  | i64 a, i64 b => compare a.toInt b.toInt
  | f64 a, f64 b => compare a.totalKey.toNat b.totalKey.toNat
  | text a, text b => cmpBytes (asBytes a) (asBytes b)
  | blob a, blob b => cmpBytes a b
  | uuid a, uuid b => cmpBytes a.toList b.toList
  | json a, json b => cmpBytes a b
  | timestamp a, timestamp b => compare a.toInt b.toInt
  | a, b => compare a.rank b.rank

/-- Two values of the same rank are of the same variant, and different ranks decide. -/
theorem logicalCmp_of_rank_ne {a b : Value} (h : a.rank ≠ b.rank) :
    a.logicalCmp b = compare a.rank b.rank := by
  cases a <;> cases b <;> first | rfl | exact absurd rfl h

/-- Equality of values (`PartialEq for Value`) follows the logical order. -/
def eqv (a b : Value) : Bool := a.logicalCmp b == .eq

end Value

/-- One hexadecimal digit. -/
def hexDigit (n : Nat) : Char := "0123456789abcdef".toList.getD n '0'

/-- The canonical hyphenated form of a uuid. -/
def uuidToString (u : Vector UInt8 16) : String :=
  String.ofList ((u.toList.zipIdx).flatMap fun (b, i) =>
    (if i = 4 ∨ i = 6 ∨ i = 8 ∨ i = 10 then ['-'] else [])
      ++ [hexDigit (b.toNat / 16), hexDigit (b.toNat % 16)])

end Edb.Types
