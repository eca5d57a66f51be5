import Mathlib

/-!
# Cyclic redundancy checks

A register of `w` bits divides a message, bit by bit, by a polynomial over the field of two
elements. Bits are taken in reflected order: bit `i` of the register is the coefficient of
`X ^ (w - 1 - i)`, the generator `g` leaves out its leading term, and a bit of the message enters
at the low end.

* dividing is what the name says: the register holds the remainder of the message, shifted by the
  width and preceded by the initial register (`poly_divide`);
* `n` bits at once are a look-up of the low bits and a shift of the others (`iterate_shift`);
* two messages that differ only within `w` consecutive bits leave different remainders, when the
  constant term of the generator is there (`divide_burst`).
-/

namespace Edb.Lib.Crc

open Polynomial

variable {w : Nat} (g : BitVec w)

/-- Shift the register by one place and take the generator off if a bit falls out. -/
def shift (r : BitVec w) : BitVec w := if r.getLsbD 0 then (r >>> 1) ^^^ g else r >>> 1

/-- A bit at the low end of a register. -/
def low (w : Nat) (b : Bool) : BitVec w := (BitVec.ofBool b).setWidth w

/-- Take one bit of the message into the register. -/
def feedBit (r : BitVec w) (b : Bool) : BitVec w := shift g (r ^^^ low w b)

/-- Divide a message, starting from the register `r`. -/
def divide (r : BitVec w) (bits : List Bool) : BitVec w := bits.foldl (feedBit g) r

@[simp] theorem divide_nil (r : BitVec w) : divide g r [] = r := rfl

@[simp] theorem divide_cons (r : BitVec w) (b : Bool) (bits : List Bool) :
    divide g r (b :: bits) = divide g (feedBit g r b) bits := rfl

theorem divide_append (r : BitVec w) (bits bits' : List Bool) :
    divide g r (bits ++ bits') = divide g (divide g r bits) bits' := List.foldl_append

/-! ## Linearity -/

theorem shift_xor (a b : BitVec w) : shift g (a ^^^ b) = shift g a ^^^ shift g b := by
  unfold shift
  rw [BitVec.getLsbD_xor, BitVec.ushiftRight_xor_distrib]
  cases a.getLsbD 0 <;> cases b.getLsbD 0
  · rfl
  · exact BitVec.xor_assoc ..
  · rw [Bool.xor_false, if_pos rfl, if_pos rfl, if_neg Bool.false_ne_true]
    rw [BitVec.xor_assoc, BitVec.xor_assoc, BitVec.xor_comm g]
  · rw [Bool.xor_self, if_neg Bool.false_ne_true, if_pos rfl, if_pos rfl]
    rw [BitVec.xor_assoc, ← BitVec.xor_assoc g, BitVec.xor_comm g, BitVec.xor_assoc,
      BitVec.xor_self, BitVec.xor_zero]

theorem iterate_shift_xor (n : Nat) (a b : BitVec w) :
    (shift g)^[n] (a ^^^ b) = (shift g)^[n] a ^^^ (shift g)^[n] b := by
  induction n generalizing a b with
  | zero => rfl
  | succ n ih => rw [Function.iterate_succ_apply, shift_xor, ih]; rfl

/-- While no bit falls out, shifting is all that happens. -/
theorem shift_of_even {a : BitVec w} (h : a.getLsbD 0 = false) : shift g a = a >>> 1 := by
  rw [shift, if_neg (by rw [h]; exact Bool.false_ne_true)]

theorem iterate_shift_high {n : Nat} {a : BitVec w} (h : ∀ i < n, a.getLsbD i = false) :
    (shift g)^[n] a = a >>> n := by
  induction n with
  | zero => simp
  | succ n ih =>
    have hout : (a >>> n).getLsbD 0 = false := by
      rw [BitVec.getLsbD_ushiftRight]
      exact h n (Nat.lt_succ_self n)
    rw [Function.iterate_succ_apply', ih (fun i hi => h i (Nat.lt_succ_of_lt hi)),
      shift_of_even g hout, BitVec.shiftRight_add]

/-- **Several bits at once.** The low bits of the register decide what is taken off, and the others
move down. -/
theorem iterate_shift {n : Nat} (l : BitVec w) {a : BitVec w} (h : ∀ i < n, a.getLsbD i = false) :
    (shift g)^[n] (l ^^^ a) = (shift g)^[n] l ^^^ (a >>> n) := by
  rw [iterate_shift_xor, iterate_shift_high g h]

/-! ## A message no longer than the register -/

/-- A message as a register, its first bit lowest. -/
def word (w : Nat) : List Bool → BitVec w
  | [] => 0
  | b :: bits => low w b ^^^ (word w bits <<< 1)

theorem getLsbD_low (b : Bool) (i : Nat) :
    (low w b).getLsbD i = (decide (i < w) && (decide (i = 0) && b)) := by
  rw [low, BitVec.getLsbD_setWidth, BitVec.getLsbD_ofBool]

theorem getLsbD_word (bits : List Bool) (i : Nat) :
    (word w bits).getLsbD i = (decide (i < w) && bits.getD i false) := by
  induction bits generalizing i with
  | nil => simp [word]
  | cons b bits ih =>
    rw [word, BitVec.getLsbD_xor, getLsbD_low, BitVec.getLsbD_shiftLeft, ih]
    cases i with
    | zero => simp
    | succ i =>
      by_cases hi : i + 1 < w
      · have hi' : i < w := by omega
        simp [hi, hi']
      · simp [hi]

theorem word_inj {bits bits' : List Bool} (hlen : bits.length = bits'.length)
    (hw : bits.length ≤ w) (h : word w bits = word w bits') : bits = bits' := by
  apply List.ext_getElem hlen
  intro i hi hi'
  have hbit := congrArg (fun a => a.getLsbD i) h
  simp only [getLsbD_word, List.getD_eq_getElem _ _ hi, List.getD_eq_getElem _ _ hi'] at hbit
  simpa [show i < w by omega] using hbit

/-- A message that fits the register may enter it at once. -/
theorem divide_eq_iterate {bits : List Bool} (h : bits.length ≤ w) (r : BitVec w) :
    divide g r bits = (shift g)^[bits.length] (r ^^^ word w bits) := by
  induction bits generalizing r with
  | nil => simp [word]
  | cons b bits ih =>
    rw [List.length_cons] at h
    have heven : (word w bits <<< 1).getLsbD 0 = false := by simp
    -- the rest of the message has room to move up and back down
    have hback : (word w bits <<< 1) >>> 1 = word w bits := by
      apply BitVec.eq_of_getLsbD_eq
      intro i hi
      rw [BitVec.getLsbD_ushiftRight, BitVec.getLsbD_shiftLeft, getLsbD_word, getLsbD_word,
        Nat.add_sub_cancel_left]
      by_cases hin : i < bits.length
      · simp [show 1 + i < w by omega, hi]
      · rw [List.getD_eq_default _ _ (Nat.le_of_not_lt hin)]
        simp
    rw [divide_cons, ih (by omega), List.length_cons, Function.iterate_succ_apply, feedBit, word,
      ← BitVec.xor_assoc, shift_xor g _ (word w bits <<< 1), shift_of_even g heven, hback]

/-! ## Division of polynomials -/

section Polynomials

/-- A bit as a polynomial. -/
noncomputable def bit (b : Bool) : (ZMod 2)[X] := if b then 1 else 0

/-- The polynomial of a register. -/
noncomputable def poly (r : BitVec w) : (ZMod 2)[X] :=
  ∑ i ∈ Finset.range w, bit (r.getLsbD i) * X ^ (w - 1 - i)

/-- The generator, with its leading term. -/
noncomputable def generator (g : BitVec w) : (ZMod 2)[X] := X ^ w + poly g

/-- The polynomial of a message, its first bit the highest coefficient. -/
noncomputable def message (bits : List Bool) : (ZMod 2)[X] :=
  bits.foldl (fun p b => p * X + bit b) 0

theorem bit_xor (a b : Bool) : bit (a ^^ b) = bit a + bit b := by
  cases a <;> cases b
  · simp [bit]
  · simp [bit]
  · simp [bit]
  · exact (CharTwo.add_self_eq_zero (1 : (ZMod 2)[X])).symm

theorem poly_xor (a b : BitVec w) : poly (a ^^^ b) = poly a + poly b := by
  simp only [poly, BitVec.getLsbD_xor, bit_xor, add_mul, Finset.sum_add_distrib]

/-- Multiplying by `X` moves the bits up: the last one leaves the register. -/
theorem X_mul_poly (r : BitVec w) (hw : 0 < w) :
    X * poly r = bit (r.getLsbD 0) * X ^ w + poly (r >>> 1) := by
  obtain ⟨n, rfl⟩ := Nat.exists_eq_succ_of_ne_zero (Nat.ne_of_gt hw)
  have hterm : ∀ i ∈ Finset.range n, X * (bit (r.getLsbD (i + 1)) * X ^ (n - (i + 1))) =
      bit ((r >>> 1).getLsbD i) * X ^ (n - i) := by
    intro i hi
    have hpow : n - i = n - (i + 1) + 1 := by
      have := Finset.mem_range.1 hi
      omega
    rw [BitVec.getLsbD_ushiftRight, Nat.add_comm 1 i, hpow, pow_succ]
    ring
  have hlast : (r >>> 1).getLsbD n = false := by
    rw [BitVec.getLsbD_ushiftRight]
    exact BitVec.getLsbD_of_ge r (1 + n) (by omega)
  unfold poly
  rw [Finset.sum_range_succ', mul_add, Finset.mul_sum, Finset.sum_range_succ, hlast]
  simp only [Nat.succ_eq_add_one, Nat.add_sub_cancel]
  rw [Finset.sum_congr rfl hterm]
  simp only [bit, Bool.false_eq_true, if_false, zero_mul, add_zero, Nat.sub_zero, pow_succ]
  ring

/-- A shift of the register is a multiplication by `X`, up to a multiple of the generator. -/
theorem X_mul_poly_shift (r : BitVec w) (hw : 0 < w) :
    X * poly r = poly (shift g r) + bit (r.getLsbD 0) * generator g := by
  rw [X_mul_poly r hw, generator, shift]
  cases r.getLsbD 0 with
  | false => simp [bit]
  | true =>
    have hcancel : poly g + poly g = 0 := CharTwo.add_self_eq_zero _
    rw [if_pos rfl, poly_xor]
    simp only [bit, if_true, one_mul]
    linear_combination - hcancel

theorem poly_low (b : Bool) (hw : 0 < w) : X * poly (low w b) = bit b * X ^ w := by
  have hzero : (low w b).getLsbD 0 = b := by
    rw [getLsbD_low, decide_eq_true hw]
    simp
  have hshift : low w b >>> 1 = 0#w := by
    apply BitVec.eq_of_getLsbD_eq
    intro i hi
    simp [BitVec.getLsbD_ushiftRight, getLsbD_low]
  have hpoly : poly (0#w) = 0 := by simp [poly, bit]
  rw [X_mul_poly _ hw, hzero, hshift, hpoly, add_zero]

theorem message_concat (bits : List Bool) (b : Bool) :
    message (bits ++ [b]) = message bits * X + bit b := by
  simp [message, List.foldl_append]

/-- What divides is a multiple of the generator. -/
theorem generator_dvd (hw : 0 < w) (r : BitVec w) (bits : List Bool) :
    generator g ∣ (X ^ bits.length * poly r + message bits * X ^ w) - poly (divide g r bits) := by
  induction bits using List.reverseRecOn with
  | nil => simp [message]
  | append_singleton bits b ih =>
    obtain ⟨q, hq⟩ := ih
    have hstep := X_mul_poly_shift g (divide g r bits ^^^ low w b) hw
    rw [poly_xor, mul_add, poly_low b hw] at hstep
    rw [divide_append, message_concat, List.length_append, List.length_singleton]
    refine ⟨q * X + bit ((divide g r bits ^^^ low w b).getLsbD 0), ?_⟩
    change _ - poly (shift g (divide g r bits ^^^ low w b)) = _
    linear_combination X * hq + hstep

theorem degree_poly_lt (r : BitVec w) : (poly r).degree < w := by
  refine (degree_sum_le _ _).trans_lt ((Finset.sup_lt_iff (WithBot.bot_lt_coe w)).2 fun i hi => ?_)
  have hlt : w - 1 - i < w := by
    have := Finset.mem_range.1 hi
    omega
  cases r.getLsbD i with
  | false => simp [bit, WithBot.bot_lt_coe]
  | true =>
    rw [bit, if_pos rfl, one_mul, degree_X_pow]
    exact WithBot.coe_lt_coe.2 hlt

theorem generator_monic : (generator g).Monic := monic_X_pow_add (degree_poly_lt g)

/-- **The register holds the remainder** of the message, shifted by the width and preceded by the
initial register. -/
theorem poly_divide (hw : 0 < w) (r : BitVec w) (bits : List Bool) :
    poly (divide g r bits) =
      (X ^ bits.length * poly r + message bits * X ^ w) %ₘ generator g := by
  have hdeg : (poly (divide g r bits)).degree < (generator g).degree := by
    have hlead : (poly g).degree < (X ^ w : (ZMod 2)[X]).degree := by
      rw [degree_X_pow]
      exact degree_poly_lt g
    rw [generator, degree_add_eq_left_of_degree_lt hlead, degree_X_pow]
    exact degree_poly_lt _
  rw [modByMonic_eq_of_dvd_sub (generator_monic g) (generator_dvd g hw r bits)]
  exact ((modByMonic_eq_self_iff (generator_monic g)).2 hdeg).symm

end Polynomials

/-! ## Bursts -/

section Bursts

variable {g}

/-- With the constant term there, no two registers shift to the same one. -/
theorem shift_injective (hg : g.msb = true) : Function.Injective (shift g) := by
  -- by linearity it is enough that only zero shifts to zero
  have hzero : ∀ a, shift g a = 0#w → a = 0#w := by
    intro a ha
    unfold shift at ha
    split at ha
    next hbit =>
      have hmsb := congrArg BitVec.msb ha
      have hshift : (a >>> 1).msb = false := by simp [BitVec.msb_ushiftRight]
      rw [BitVec.msb_xor, hshift, hg] at hmsb
      simp at hmsb
    next hbit =>
      apply BitVec.eq_of_getLsbD_eq
      intro i hi
      cases i with
      | zero => simpa using hbit
      | succ i =>
        have := congrArg (fun b => b.getLsbD i) ha
        simpa [BitVec.getLsbD_ushiftRight, Nat.add_comm 1 i] using this
  intro a b hab
  have hdiff : shift g (a ^^^ b) = 0#w := by rw [shift_xor, hab, BitVec.xor_self]
  exact BitVec.xor_eq_zero_iff.1 (hzero _ hdiff)

theorem divide_injective (hg : g.msb = true) (bits : List Bool) :
    Function.Injective fun r => divide g r bits := by
  induction bits with
  | nil => exact fun _ _ h => h
  | cons b bits ih =>
    intro r r' h
    have hfeed : feedBit g r b = feedBit g r' b := ih h
    have hin := shift_injective hg hfeed
    simpa using hin

/-- **Bursts are detected.** Messages that differ only within as many consecutive bits as the
register has leave different remainders. -/
theorem divide_burst (hg : g.msb = true) (r : BitVec w) (before after : List Bool)
    {burst burst' : List Bool} (hlen : burst.length = burst'.length) (hw : burst.length ≤ w)
    (hne : burst ≠ burst') :
    divide g r (before ++ burst ++ after) ≠ divide g r (before ++ burst' ++ after) := by
  intro h
  rw [divide_append, divide_append, divide_append, divide_append] at h
  have hburst : divide g (divide g r before) burst = divide g (divide g r before) burst' :=
    divide_injective hg after h
  rw [divide_eq_iterate g hw, divide_eq_iterate g (hlen.ge.trans hw), ← hlen] at hburst
  have hwords := (shift_injective hg).iterate _ hburst
  exact hne (word_inj hlen hw (by simpa using hwords))

end Bursts

end Edb.Lib.Crc
