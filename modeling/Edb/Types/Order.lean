import Edb.Lib.Keyset
import Edb.Types.Value

/-!
# The logical order is an order

Every value has a code, a list of integers that starts with its rank, and values compare as
their codes do lexicographically.
-/

namespace Edb.Types

open Edb.Lib

/-- Bytes as integers. -/
def byteCode (bytes : Bytes) : List Int := bytes.map (fun b => (b.toNat : Int))

theorem compare_natCast (a b : Nat) : compare (a : Int) (b : Int) = compare a b := by
  rcases Nat.lt_trichotomy a b with h | h | h
  · rw [Nat.compare_eq_lt.2 h, Int.compare_eq_lt.2 (by omega)]
  · rw [Nat.compare_eq_eq.2 h, Int.compare_eq_eq.2 (by omega)]
  · rw [Nat.compare_eq_gt.2 h, Int.compare_eq_gt.2 (by omega)]

theorem cmpBytes_eq_byteCode (a b : Bytes) :
    cmpBytes a b = (byteCode a).compareLex compare (byteCode b) := by
  induction a generalizing b with
  | nil => cases b <;> rfl
  | cons x a ih =>
    cases b with
    | nil => rfl
    | cons y b =>
      rw [cmpBytes, byteCode, byteCode, List.map_cons, List.map_cons, List.compareLex_cons_cons,
        List.compareLex_cons_cons, compare_natCast]
      show (cmpByte x y).then (cmpBytes a b) = _
      rw [ih]
      rfl

namespace Value

/-- What orders a value among the values of its variant. -/
def body : Value → List Int
  | null => []
  | bool b => [(b.toNat : Int)]
  | i64 v => [v.toInt]
  | f64 v => [(v.totalKey.toNat : Int)]
  | text s => byteCode (asBytes s)
  | blob b => byteCode b
  | uuid u => byteCode u.toList
  | timestamp v => [v.toInt]
  | json b => byteCode b

def code (v : Value) : List Int := (v.rank : Int) :: v.body

/-- One integer each. -/
theorem compareLex_singleton (a b : Int) : [a].compareLex compare [b] = compare a b := by
  rw [List.compareLex_cons_cons]
  exact Ordering.then_eq

theorem body_compare {a b : Value} (h : a.rank = b.rank) :
    a.logicalCmp b = a.body.compareLex compare b.body := by
  cases a with
  | null =>
    cases b with
    | null => rfl
    | _ => cases h
  | bool x =>
    cases b with
    | bool y => exact (compare_natCast _ _).symm.trans (compareLex_singleton _ _).symm
    | _ => cases h
  | i64 x =>
    cases b with
    | i64 y => exact (compareLex_singleton _ _).symm
    | _ => cases h
  | f64 x =>
    cases b with
    -- floats are compared by the total order of their bits
    | f64 y => exact (compare_natCast _ _).symm.trans (compareLex_singleton _ _).symm
    | _ => cases h
  | text x =>
    cases b with
    | text y => exact cmpBytes_eq_byteCode _ _
    | _ => cases h
  | blob x =>
    cases b with
    | blob y => exact cmpBytes_eq_byteCode _ _
    | _ => cases h
  | uuid x =>
    cases b with
    | uuid y => exact cmpBytes_eq_byteCode _ _
    | _ => cases h
  | json x =>
    cases b with
    | json y => exact cmpBytes_eq_byteCode _ _
    | _ => cases h
  | timestamp x =>
    cases b with
    | timestamp y => exact (compareLex_singleton _ _).symm
    | _ => cases h

/-- Values compare as their codes. -/
theorem logicalCmp_eq_code (a b : Value) :
    a.logicalCmp b = a.code.compareLex compare b.code := by
  rw [code, code, List.compareLex_cons_cons, compare_natCast]
  by_cases h : a.rank = b.rank
  · rw [body_compare h, Nat.compare_eq_eq.2 h]
    rfl
  · rw [logicalCmp_of_rank_ne h]
    cases hc : compare a.rank b.rank with
    | lt => rfl
    | eq => exact absurd (Nat.compare_eq_eq.1 hc) h
    | gt => rfl

theorem logicalCmp_order : Keyset.OrderOn logicalCmp (fun _ => True) where
  swap {a b} _ _ := by
    rw [logicalCmp_eq_code, logicalCmp_eq_code]
    exact Std.OrientedCmp.eq_swap
  le_trans {a b c} _ _ _ hab hbc := by
    rw [logicalCmp_eq_code] at hab hbc ⊢
    exact Ordering.ne_gt_iff_isLE.2 (Std.TransCmp.isLE_trans (Ordering.ne_gt_iff_isLE.1 hab)
      (Ordering.ne_gt_iff_isLE.1 hbc))

theorem eqv_symm {a b : Value} (h : a.eqv b = true) : b.eqv a = true := by
  rw [eqv, beq_iff_eq] at h ⊢
  rw [logicalCmp_order.swap trivial trivial, h]
  rfl

theorem eqv_trans {a b c : Value} (hab : a.eqv b = true) (hbc : b.eqv c = true) :
    a.eqv c = true := by
  rw [eqv, beq_iff_eq] at hab hbc ⊢
  exact logicalCmp_order.eq_trans trivial trivial trivial hab hbc

end Value

end Edb.Types
