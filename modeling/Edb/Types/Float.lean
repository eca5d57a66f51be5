import Edb.Types.Value

/-!
# Conversions between integers and floats

The casts the evaluator makes: an integer to the nearest double (ties to even) and a double
to the integer it truncates to. Both are functions of the bits. The cast of an integer keeps the
order (`totalKey_ofInt64_mono`): larger integers may meet in one double, but never cross.
-/

namespace Edb.Types.F64

/-- The double nearest to a natural number, ties to even. With `e` the position of the
leading bit, the significand is the top 53 bits, rounded; a carry out of it moves into the
exponent field by itself. -/
def ofNat (n : Nat) : F64 :=
  if n = 0 then ⟨0⟩
  else
    let e := n.log2
    let q :=
      if e ≤ 52 then n * 2 ^ (52 - e)
      else
        let shift := e - 52
        let q := n / 2 ^ shift
        let r := n % 2 ^ shift
        if 2 ^ (shift - 1) < r ∨ (r = 2 ^ (shift - 1) ∧ q % 2 = 1) then q + 1 else q
    ⟨UInt64.ofNat ((e + 1022) * 2 ^ 52 + q)⟩

/-- Set the sign bit. -/
def neg (f : F64) : F64 := ⟨f.bits ||| ((1 : UInt64) <<< 63)⟩

/-- `i64 as f64`. -/
def ofInt64 (v : Int64) : F64 :=
  if v.toInt < 0 then neg (ofNat v.toInt.natAbs) else ofNat v.toInt.natAbs

/-- Whether the sign bit is set. -/
def isNeg (f : F64) : Bool := decide (2 ^ 63 ≤ f.bits.toNat)

/-- The exponent field. -/
def exponent (f : F64) : Nat := f.bits.toNat / 2 ^ 52 % 2 ^ 11

/-- The fraction field. -/
def fraction (f : F64) : Nat := f.bits.toNat % 2 ^ 52

/-- Neither infinite nor NaN. -/
def isFinite (f : F64) : Bool := f.exponent != 2047

/-- The magnitude of a finite double, rounded down. -/
def truncAbs (f : F64) : Nat :=
  let m := if f.exponent = 0 then f.fraction else 2 ^ 52 + f.fraction
  let e := max f.exponent 1
  if 1075 ≤ e then m * 2 ^ (e - 1075) else m / 2 ^ (1075 - e)

/-- `f.trunc() as i64`, none when the value is not finite or out of the range
`[i64::MIN, 2^63)`. -/
def toInt64? (f : F64) : Option Int64 :=
  if !f.isFinite then none
  -- below `i64::MIN`: more than `2^63` in magnitude, which a fraction bit decides
  else if f.isNeg && (1086 < f.exponent || (f.exponent == 1086 && 0 < f.fraction)) then none
  else if !f.isNeg && 1086 ≤ f.exponent then none
  else some (Int64.ofInt (if f.isNeg then -(f.truncAbs : Int) else f.truncAbs))

/-- `f64::from(f32::from_bits(n))`: every single is a double. A subnormal single is a normal
double; a NaN keeps its sign and payload and becomes quiet. -/
def ofF32 (n : Nat) : F64 :=
  let sign := n / 2 ^ 31 % 2
  let e := n / 2 ^ 23 % 2 ^ 8
  let f := n % 2 ^ 23
  let magnitude :=
    if e = 255 then 2047 * 2 ^ 52 + (if f = 0 then 0 else 2 ^ 51 + f % 2 ^ 22 * 2 ^ 29)
    else if e = 0 then
      if f = 0 then 0 else (f.log2 + 874) * 2 ^ 52 + (f - 2 ^ f.log2) * 2 ^ (52 - f.log2)
    else (e + 896) * 2 ^ 52 + f * 2 ^ 29
  ⟨UInt64.ofNat (sign * 2 ^ 63 + magnitude)⟩

/-- The smallest subnormal single is `2^-149`. -/
example : ofF32 1 = ⟨0x36A0000000000000⟩ := by decide

example : ofInt64 3 = ⟨0x4008000000000000⟩ := by decide

example : ofInt64 (-1) = ⟨0xBFF0000000000000⟩ := by decide

/-- `2^53 + 1` is halfway between two doubles and goes to the even one. -/
example : ofInt64 9007199254740993 = ofInt64 9007199254740992 := by decide

/-! ## The cast of an integer keeps the order -/

/-- `n / 2 ^ shift` to the nearest, ties to even. -/
def roundEven (n shift : Nat) : Nat :=
  let q := n / 2 ^ shift
  let r := n % 2 ^ shift
  if 2 ^ (shift - 1) < r ∨ (r = 2 ^ (shift - 1) ∧ q % 2 = 1) then q + 1 else q

/-- The 53 bits that a natural number is rounded to. -/
def significand (n : Nat) : Nat :=
  if n.log2 ≤ 52 then n * 2 ^ (52 - n.log2) else roundEven n (n.log2 - 52)

/-- The bits of the double nearest to a natural number, as a number. -/
def magnitude (n : Nat) : Nat := if n = 0 then 0 else (n.log2 + 1022) * 2 ^ 52 + significand n

theorem ofNat_eq (n : Nat) : ofNat n = ⟨UInt64.ofNat (magnitude n)⟩ := by
  rw [ofNat, magnitude]
  split
  · rfl
  · rfl

theorem roundEven_le (n shift : Nat) : roundEven n shift ≤ n / 2 ^ shift + 1 := by
  rw [roundEven]
  split <;> omega

theorem le_roundEven (n shift : Nat) : n / 2 ^ shift ≤ roundEven n shift := by
  rw [roundEven]
  split <;> omega

/-- With one quotient the remainders decide, with two the larger one is not reached. -/
theorem roundEven_mono {n m : Nat} (shift : Nat) (h : n ≤ m) :
    roundEven n shift ≤ roundEven m shift := by
  have hquot : n / 2 ^ shift ≤ m / 2 ^ shift := Nat.div_le_div_right h
  rcases Nat.eq_or_lt_of_le hquot with heq | hlt
  · have hrem : n % 2 ^ shift ≤ m % 2 ^ shift := by
      have hn := Nat.div_add_mod n (2 ^ shift)
      have hm := Nat.div_add_mod m (2 ^ shift)
      rw [heq] at hn
      omega
    rw [roundEven, roundEven, heq]
    split
    · next hup =>
      rw [if_pos]
      omega
    · split <;> omega
  · exact (roundEven_le n shift).trans (hlt.trans_le (le_roundEven m shift))

theorem significand_bounds {n : Nat} (hn : n ≠ 0) :
    2 ^ 52 ≤ significand n ∧ significand n ≤ 2 ^ 53 := by
  have hle : 2 ^ n.log2 ≤ n := Nat.log2_self_le hn
  have hlt : n < 2 ^ (n.log2 + 1) := Nat.lt_log2_self
  rw [significand]
  split
  · next he =>
    have hpow : 2 ^ n.log2 * 2 ^ (52 - n.log2) = 2 ^ 52 := by
      rw [← Nat.pow_add]
      congr 1
      omega
    have hpow' : 2 ^ (n.log2 + 1) * 2 ^ (52 - n.log2) = 2 ^ 53 := by
      rw [← Nat.pow_add]
      congr 1
      omega
    exact ⟨hpow ▸ Nat.mul_le_mul_right _ hle, hpow' ▸ Nat.mul_le_mul_right _ hlt.le⟩
  · next he =>
    have hpos : 0 < 2 ^ (n.log2 - 52) := Nat.two_pow_pos _
    have hpow : 2 ^ 52 * 2 ^ (n.log2 - 52) = 2 ^ n.log2 := by
      rw [← Nat.pow_add]
      congr 1
      omega
    have hlow : 2 ^ 52 ≤ n / 2 ^ (n.log2 - 52) := (Nat.le_div_iff_mul_le hpos).2 (hpow ▸ hle)
    have hhigh : n / 2 ^ (n.log2 - 52) < 2 ^ 53 := by
      rw [Nat.div_lt_iff_lt_mul hpos]
      rw [Nat.pow_succ] at hlt
      omega
    have := roundEven_le n (n.log2 - 52)
    have := le_roundEven n (n.log2 - 52)
    omega

/-- A carry out of the significand is the next exponent, so the bits grow with the number. -/
theorem magnitude_mono {n m : Nat} (h : n ≤ m) : magnitude n ≤ magnitude m := by
  by_cases hn : n = 0
  · rw [magnitude, if_pos hn]
    exact Nat.zero_le _
  have hm : m ≠ 0 := by omega
  rw [magnitude, magnitude, if_neg hn, if_neg hm]
  have hlog : n.log2 ≤ m.log2 := by
    rw [Nat.le_log2 hm]
    exact (Nat.log2_self_le hn).trans h
  rcases Nat.eq_or_lt_of_le hlog with heq | hlt
  · have hsig : significand n ≤ significand m := by
      rw [significand, significand, heq]
      split
      · exact Nat.mul_le_mul_right _ h
      · exact roundEven_mono _ h
    omega
  · have := (significand_bounds hn).2
    have := (significand_bounds hm).1
    omega

/-- No integer of 64 bits comes near the infinite double. -/
theorem magnitude_lt {n : Nat} (h : n < 2 ^ 64) : magnitude n < 2047 * 2 ^ 52 := by
  by_cases hn : n = 0
  · rw [magnitude, if_pos hn]
    decide
  have hlog : n.log2 < 64 := (Nat.log2_lt hn).2 h
  have := (significand_bounds hn).2
  rw [magnitude, if_neg hn]
  omega

theorem toNat_ofNat {n : Nat} (h : n < 2 ^ 64) : (ofNat n).bits.toNat = magnitude n := by
  have := magnitude_lt h
  rw [ofNat_eq]
  show (UInt64.ofNat (magnitude n)).toNat = magnitude n
  rw [UInt64.toNat_ofNat', Nat.mod_eq_of_lt (by omega)]

theorem isNan_iff {f : F64} : f.isNan = true ↔ 2047 * 2 ^ 52 < f.bits.toNat % 2 ^ 63 := by
  have hmask : (0x7FFFFFFFFFFFFFFF : UInt64) = ~~~((1 : UInt64) <<< 63) := by decide
  rw [isNan, decide_eq_true_iff, hmask, UInt64.lt_iff_toNat_lt, toNat_and_low]
  rfl

theorem toNat_neg {f : F64} (h : f.bits.toNat < 2 ^ 63) :
    f.neg.bits.toNat = 2 ^ 63 + f.bits.toNat := toNat_or_top h

theorem ofInt64_isNan (v : Int64) : (ofInt64 v).isNan = false := by
  have hle := v.le_toInt
  have hlt := v.toInt_lt
  have habs : v.toInt.natAbs < 2 ^ 64 := by omega
  have hmag := magnitude_lt habs
  have hbits := toNat_ofNat habs
  rw [← Bool.not_eq_true, isNan_iff, ofInt64]
  split
  · rw [toNat_neg (by omega)]
    omega
  · omega

theorem totalKey_of_lt {f : F64} (hnan : f.isNan = false) (h : f.bits.toNat < 2 ^ 63) :
    f.totalKey.toNat = 2 ^ 63 + f.bits.toNat := by
  simp only [totalKey, hnan, Bool.false_eq_true, if_false]
  rw [if_pos (shiftRight_top_eq_zero.2 h), toNat_or_top h]

theorem totalKey_of_ge {f : F64} (hnan : f.isNan = false) (h : ¬ f.bits.toNat < 2 ^ 63) :
    f.totalKey.toNat = 2 ^ 64 - 1 - f.bits.toNat := by
  simp only [totalKey, hnan, Bool.false_eq_true, if_false]
  rw [if_neg (fun hs => h (shiftRight_top_eq_zero.1 hs)), UInt64.toNat_not]
  rfl

/-- The place of an integer among the floats: up with its magnitude, or down from the middle. -/
theorem totalKey_ofInt64 (v : Int64) : (ofInt64 v).totalKey.toNat =
    if v.toInt < 0 then 2 ^ 63 - 1 - magnitude v.toInt.natAbs
    else 2 ^ 63 + magnitude v.toInt.natAbs := by
  have hle := v.le_toInt
  have hlt := v.toInt_lt
  have habs : v.toInt.natAbs < 2 ^ 64 := by omega
  have hmag := magnitude_lt habs
  have hbits := toNat_ofNat habs
  have hnan := ofInt64_isNan v
  rw [ofInt64] at hnan ⊢
  split at hnan
  · next hneg =>
    have hneg' := toNat_neg (show (ofNat v.toInt.natAbs).bits.toNat < 2 ^ 63 by omega)
    rw [if_pos hneg, if_pos hneg, totalKey_of_ge hnan (by omega), hneg', hbits]
    omega
  · next hpos =>
    rw [if_neg hpos, if_neg hpos, totalKey_of_lt hnan (by omega), hbits]

theorem totalKey_ofInt64_mono {x y : Int64} (h : x.toInt ≤ y.toInt) :
    (ofInt64 x).totalKey.toNat ≤ (ofInt64 y).totalKey.toNat := by
  rw [totalKey_ofInt64, totalKey_ofInt64]
  split
  · split
    · have := magnitude_mono (show y.toInt.natAbs ≤ x.toInt.natAbs by omega)
      omega
    · omega
  · rw [if_neg (by omega)]
    have := magnitude_mono (show x.toInt.natAbs ≤ y.toInt.natAbs by omega)
    omega

/-- A float in an integer's place is what the integer is cast to. -/
theorem totalKey_ofInt64_eq {x : Int64} {f : F64} :
    (ofInt64 x).totalKey.toNat = f.totalKey.toNat ↔ ofInt64 x = f := by
  constructor
  · intro h
    have hback := fromTotalKey_totalKey (ofInt64 x)
    rw [UInt64.toNat_inj.1 h, fromTotalKey_totalKey, ofInt64_isNan,
      if_neg Bool.false_ne_true] at hback
    split at hback
    · have hnone := ofInt64_isNan x
      rw [← hback] at hnone
      exact absurd hnone (by decide)
    · exact hback.symm
  · intro h
    rw [h]

end Edb.Types.F64
