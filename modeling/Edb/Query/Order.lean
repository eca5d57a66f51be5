import Edb.Query.Exec
import Edb.Types.Order

/-!
# The order of the executor

`sort`, comparisons, MIN and MAX share `valueOrder`: two integers compare exactly, an integer and
a float after the integer is rounded to a double, everything else by the logical order. Rounding
keeps the order but not distinctness, so two integers that share a double are both equal to it
and not to each other.

* **When the order is one** (`valueOrder_preorder_iff`): values obey the laws of a total preorder
  unless one is a float that two others are different integers rounding to. Then every sort by
  them is one the standard sort accepts, and MIN and MAX find equal values in every order of the
  rows; the same values, where only equal ones tie.
-/

namespace Edb.Query

open Edb.Types Edb.Proto Edb.Lib

/-- A value as a mixed comparison takes it: an integer is rounded to a double. -/
def rounded : Value → Value
  | .i64 x => .f64 (F64.ofInt64 x)
  | v => v

/-- Two different integers on either side of the one double that both round to. -/
def Collide (a b c : Value) : Prop :=
  ∃ x y : Int64, x ≠ y ∧ a = .i64 x ∧ c = .i64 y ∧ b = .f64 (F64.ofInt64 x)
    ∧ b = .f64 (F64.ofInt64 y)

/-- Unless both are integers, the order is that of the rounded values. -/
theorem valueOrder_eq_rounded {a b : Value} (h : ¬ ∃ x y, a = .i64 x ∧ b = .i64 y) :
    valueOrder a b = (rounded a).logicalCmp (rounded b) := by
  cases a with
  | i64 x =>
    cases b with
    | i64 y => exact absurd ⟨x, y, rfl, rfl⟩ h
    | _ => rfl
  | f64 x => cases b <;> rfl
  | _ => cases b <;> rfl

theorem valueOrder_i64 (x y : Int64) : valueOrder (.i64 x) (.i64 y) = compare x.toInt y.toInt := rfl

/-- Rounding keeps the order. -/
theorem rounded_le {a b : Value} (h : valueOrder a b ≠ .gt) :
    (rounded a).logicalCmp (rounded b) ≠ .gt := by
  by_cases hint : ∃ x y, a = .i64 x ∧ b = .i64 y
  · obtain ⟨x, y, rfl, rfl⟩ := hint
    exact Nat.compare_ne_gt.2 (F64.totalKey_ofInt64_mono (Int.compare_ne_gt.1 h))
  · rwa [← valueOrder_eq_rounded hint]

theorem valueOrder_swap (a b : Value) : valueOrder a b = (valueOrder b a).swap := by
  by_cases hint : ∃ x y, a = .i64 x ∧ b = .i64 y
  · obtain ⟨x, y, rfl, rfl⟩ := hint
    have hswap := Value.logicalCmp_order.swap (a := .i64 y) (b := .i64 x) trivial trivial
    exact hswap
  · have hint' : ¬ ∃ x y, b = .i64 x ∧ a = .i64 y := fun ⟨x, y, hb, ha⟩ => hint ⟨y, x, ha, hb⟩
    rw [valueOrder_eq_rounded hint, valueOrder_eq_rounded hint']
    exact Value.logicalCmp_order.swap trivial trivial

/-- Only a float stands in the place of a rounded integer. -/
theorem eq_of_rounded_eq {x : Int64} {b : Value} (hb : ∀ y, b ≠ .i64 y)
    (h : (rounded (.i64 x)).logicalCmp (rounded b) = .eq) : b = .f64 (F64.ofInt64 x) := by
  cases b with
  | f64 f => rw [F64.totalKey_ofInt64_eq.1 (Nat.compare_eq_eq.1 h)]
  | i64 y => exact absurd rfl (hb y)
  | _ => cases h

/-- The order of values is transitive on values that do not collide. -/
theorem valueOrder_le_trans {a b c : Value} (hno : ¬ Collide a b c) (hab : valueOrder a b ≠ .gt)
    (hbc : valueOrder b c ≠ .gt) : valueOrder a c ≠ .gt := by
  have hrounded := Value.logicalCmp_order.le_trans trivial trivial trivial (rounded_le hab)
    (rounded_le hbc)
  by_cases hint : ∃ x y, a = .i64 x ∧ c = .i64 y
  · obtain ⟨x, y, rfl, rfl⟩ := hint
    by_cases hb : ∃ z, b = .i64 z
    · obtain ⟨z, rfl⟩ := hb
      have hle := (Int.compare_ne_gt.1 hab).trans (Int.compare_ne_gt.1 hbc)
      exact Int.compare_ne_gt.2 hle
    -- were the integers out of order, rounding would have to make all three equal
    · intro hgt
      have hlt : y.toInt < x.toInt := Int.compare_eq_gt.1 hgt
      have hback : valueOrder (.i64 y) (.i64 x) ≠ .gt := Int.compare_ne_gt.2 hlt.le
      have hbx := Value.logicalCmp_order.le_trans trivial trivial trivial (rounded_le hbc)
        (rounded_le hback)
      have hyb := Value.logicalCmp_order.le_trans trivial trivial trivial (rounded_le hback)
        (rounded_le hab)
      have hxb : (rounded (.i64 x)).logicalCmp (rounded b) = .eq :=
        Value.logicalCmp_order.antisymm trivial trivial (rounded_le hab) hbx
      have hyb : (rounded (.i64 y)).logicalCmp (rounded b) = .eq :=
        Value.logicalCmp_order.antisymm trivial trivial hyb (rounded_le hbc)
      have hb' : ∀ z, b ≠ .i64 z := fun z hz => hb ⟨z, hz⟩
      refine hno ⟨x, y, ?_, rfl, rfl, eq_of_rounded_eq hb' hxb, eq_of_rounded_eq hb' hyb⟩
      rintro rfl
      omega
  · rwa [valueOrder_eq_rounded hint]

/-- Where no two integers collide in a float, the order is a total preorder. -/
theorem valueOrder_order {P : Value → Prop}
    (hno : ∀ a b c, P a → P b → P c → ¬ Collide a b c) : Keyset.OrderOn valueOrder P where
  swap {a b} _ _ := valueOrder_swap b a
  le_trans {a b c} ha hb hc := valueOrder_le_trans (hno a b c ha hb hc)

theorem Collide.symm {a b c : Value} (h : Collide a b c) : Collide c b a := by
  obtain ⟨x, y, hne, ha, hc, hx, hy⟩ := h
  exact ⟨y, x, hne.symm, hc, ha, hy, hx⟩

theorem f64Order_ofInt64 (x : Int64) :
    valueOrder (.i64 x) (.f64 (F64.ofInt64 x)) = .eq
      ∧ valueOrder (.f64 (F64.ofInt64 x)) (.i64 x) = .eq :=
  ⟨Nat.compare_eq_eq.2 rfl, Nat.compare_eq_eq.2 rfl⟩

/-- Three values obey the laws of a total preorder. -/
structure Laws (a b c : Value) : Prop where
  swap : valueOrder a b = (valueOrder b a).swap
  le_trans : valueOrder a b ≠ .gt → valueOrder b c ≠ .gt → valueOrder a c ≠ .gt
  eq_trans : valueOrder a b = .eq → valueOrder b c = .eq → valueOrder a c = .eq

/-- They do exactly when the outer two are not different integers that both round to the middle
one. -/
theorem laws_iff (a b c : Value) : Laws a b c ↔ ¬ Collide a b c := by
  constructor
  · rintro ⟨-, -, htrans⟩ ⟨x, y, hne, rfl, rfl, hx, hy⟩
    have hxb : valueOrder (.i64 x) b = .eq := hx ▸ (f64Order_ofInt64 x).1
    have hby : valueOrder b (.i64 y) = .eq := hy ▸ (f64Order_ofInt64 y).2
    exact hne (Int64.toInt_inj.1 (Int.compare_eq_eq.1 (htrans hxb hby)))
  · intro hno
    refine ⟨valueOrder_swap a b, valueOrder_le_trans hno, fun hab hbc => ?_⟩
    have hac : valueOrder a c ≠ .gt := by
      apply valueOrder_le_trans hno
      · rw [hab]
        decide
      · rw [hbc]
        decide
    have hca : valueOrder c a ≠ .gt := by
      apply valueOrder_le_trans (fun h => hno h.symm)
      · rw [valueOrder_swap, hbc]
        decide
      · rw [valueOrder_swap, hab]
        decide
    rw [valueOrder_swap] at hca
    exact Keyset.OrderOn.eq_of_ne_gt hac hca

/-! ## Key tuples -/

theorem inDir_order {cmp : Value → Value → Ordering} {P : Value → Prop}
    (h : Keyset.OrderOn cmp P) (dir : Dir) :
    Keyset.OrderOn (fun a b => inDir dir (cmp a b)) P := by
  cases dir with
  | asc => exact h
  | desc => exact h.reverse

/-- Each component of a tuple satisfies the predicate of its position. -/
abbrev InColumns (columns : List (Value → Prop)) (key : Row) : Prop :=
  List.Forall₂ (fun P v => P v) columns key

/-- A tuple is its first component and the rest. -/
theorem inColumns_cons {P : Value → Prop} {columns : List (Value → Prop)} {key : Row}
    (h : InColumns (P :: columns) key) : ∃ v vs, key = v :: vs ∧ P v ∧ InColumns columns vs := by
  cases h with
  | cons hv hvs => exact ⟨_, _, rfl, hv, hvs⟩

/-- The sort order is an order on tuples whose columns `valueOrder` orders, in every mixture of
directions. -/
theorem keyOrder_order (keys : List SortKey) : ∀ columns : List (Value → Prop),
    (∀ P ∈ columns, Keyset.OrderOn valueOrder P) →
      Keyset.OrderOn (keyOrder keys) (InColumns columns) := by
  induction keys with
  | nil =>
    intro columns _
    have heq : ∀ a b : Row, keyOrder [] a b = .eq := fun a b => by cases a <;> cases b <;> rfl
    constructor
    · intro a b _ _
      rw [heq, heq]
      rfl
    · intro a b c _ _ _ _ _
      rw [heq]
      decide
  | cons key keys ih =>
    intro columns hcolumns
    cases columns with
    | nil =>
      -- only the empty tuple has no columns
      have hnil : ∀ a : Row, InColumns [] a → a = [] := fun a h => List.forall₂_nil_left_iff.1 h
      constructor
      · intro a b ha hb
        rw [hnil a ha, hnil b hb]
        rfl
      · intro a b c ha _ hc _ _
        rw [hnil a ha, hnil c hc]
        simp [keyOrder]
    | cons P columns =>
      have hfirst : Keyset.OrderOn
          (fun a b : Row => inDir key.dir (valueOrder (a.headD .null) (b.headD .null)))
          (InColumns (P :: columns)) := by
        have hdir := inDir_order (hcolumns P List.mem_cons_self) key.dir
        apply (hdir.comap (fun a : Row => a.headD .null)).mono
        intro a ha
        obtain ⟨v, vs, rfl, hv, _⟩ := inColumns_cons ha
        exact hv
      have hrest : Keyset.OrderOn (fun a b : Row => keyOrder keys a.tail b.tail)
          (InColumns (P :: columns)) := by
        apply ((ih columns (fun Q hQ => hcolumns Q (List.mem_cons_of_mem _ hQ))).comap
          List.tail).mono
        intro a ha
        obtain ⟨v, vs, rfl, _, hvs⟩ := inColumns_cons ha
        exact hvs
      apply (hfirst.lex hrest).congr
      intro a b ha hb
      obtain ⟨v, vs, rfl, _, _⟩ := inColumns_cons ha
      obtain ⟨w, ws, rfl, _, _⟩ := inColumns_cons hb
      rfl

/-- Comparing two keys the other way round turns the result around. -/
theorem keyOrder_swap {keys : List SortKey} : ∀ {a b : Row}, a.length = keys.length →
    b.length = keys.length → keyOrder keys b a = (keyOrder keys a b).swap := by
  induction keys with
  | nil =>
    intro a b ha hb
    rw [List.length_eq_zero_iff.1 ha, List.length_eq_zero_iff.1 hb]
    rfl
  | cons key keys ih =>
    intro a b ha hb
    obtain ⟨v, vs, rfl⟩ := List.exists_cons_of_length_eq_add_one ha
    obtain ⟨w, ws, rfl⟩ := List.exists_cons_of_length_eq_add_one hb
    have hdir : inDir key.dir (valueOrder w v) = (inDir key.dir (valueOrder v w)).swap := by
      rw [valueOrder_swap w v]
      cases key.dir <;> rfl
    rw [keyOrder, keyOrder, ih (Nat.succ.inj ha) (Nat.succ.inj hb), hdir, Ordering.swap_then]

/-! ## Values that are brought together -/

/-- No float is one that two different integers round to. -/
def Apart (vs : List Value) : Prop := ∀ a ∈ vs, ∀ b ∈ vs, ∀ c ∈ vs, ¬ Collide a b c

/-- Whatever keys tuples of the values are sorted by, the comparator is one that the standard sort
accepts. -/
def Sortable (vs : List Value) : Prop :=
  ∀ (keys : List SortKey) (tuples : List Row),
    (∀ t ∈ tuples, t.length = keys.length ∧ ∀ v ∈ t, v ∈ vs) →
      Keyset.OrderOn (keyOrder keys) (· ∈ tuples)

/-- MIN and MAX of the values are the same, in one sense, in every order of the rows. -/
def Unordered (same : Option Value → Option Value → Prop) (vs : List Value) : Prop :=
  ∀ ws : List Value, ws.Perm vs → same (minBy ws) (minBy vs) ∧ same (maxBy ws) (maxBy vs)

/-- Both absent, or equal under the order. -/
def EqualValues : Option Value → Option Value → Prop
  | some a, some b => valueOrder a b = .eq
  | none, none => True
  | _, _ => False

/-- Values that are both the least, or both the greatest, are one. -/
def TiesAgree (vs : List Value) : Prop :=
  (∀ a ∈ vs, ∀ b ∈ vs, (∀ c ∈ vs, valueOrder a c ≠ .gt) → (∀ c ∈ vs, valueOrder b c ≠ .gt) →
      a = b) ∧
    ∀ a ∈ vs, ∀ b ∈ vs, (∀ c ∈ vs, valueOrder c a ≠ .gt) → (∀ c ∈ vs, valueOrder c b ≠ .gt) →
      a = b

theorem minBy_eq_least (vs : List Value) : minBy vs = Keyset.least valueOrder vs := by
  cases vs <;> rfl

theorem maxBy_eq_greatest (vs : List Value) : maxBy vs = Keyset.greatest valueOrder vs := by
  cases vs <;> rfl

section Together

variable {vs : List Value}

theorem Apart.order (h : Apart vs) : Keyset.OrderOn valueOrder (· ∈ vs) :=
  valueOrder_order (fun a b c ha hb hc => h a ha b hb c hc)

/-- Values that are apart are sortable. -/
theorem Apart.sortable (h : Apart vs) : Sortable vs := by
  intro keys tuples htuples
  apply (keyOrder_order keys (List.replicate keys.length (· ∈ vs)) ?_).mono
  · intro t ht
    obtain ⟨hlen, hvals⟩ := htuples t ht
    rw [InColumns, List.forall₂_iff_get]
    refine ⟨by rw [List.length_replicate, hlen], fun i _ hi => ?_⟩
    simpa using hvals _ (List.get_mem t ⟨i, hi⟩)
  · intro P hP
    rw [List.eq_of_mem_replicate hP]
    exact h.order

/-- A sort whose keys are tuples of the values returns. -/
theorem Sortable.sort_returns (h : Sortable vs) {fx : Intrinsics} {rel : Relation}
    {keys : List SortKey} (hvals : ∀ row ∈ rel.rows, ∀ key,
      sortKeys fx keys rel.shape row = .ok key → ∀ v ∈ key, v ∈ vs) :
    sort fx rel keys ≠ .error .panicked := by
  intro hsort
  rcases Result.bind_eq_error.1 hsort with hkeyed | ⟨keyed, hkeyed, hsort⟩
  · obtain ⟨e, he⟩ := eq_eval_of_ofEval hkeyed
    cases he
  have htuples : ∀ t ∈ keyed.map Prod.fst, t.length = keys.length ∧ ∀ v ∈ t, v ∈ vs := by
    intro t ht
    obtain ⟨kr, hkr, rfl⟩ := List.mem_map.1 ht
    obtain ⟨row, hrow, hkey⟩ := Result.mem_of_mapM (ofEval_eq_ok.1 hkeyed) hkr
    obtain ⟨key, hvalues, hpair⟩ := Result.bind_eq_ok.1 hkey
    cases hpair
    exact ⟨(Result.mapM_eq_ok.1 hvalues).length_eq.symm, hvals row hrow key hvalues⟩
  have horder : Keyset.OrderOn (fun a b : Row × Row => keyOrder keys a.1 b.1) (· ∈ keyed) :=
    ((h keys _ htuples).comap Prod.fst).mono (fun kr hkr => List.mem_map_of_mem hkr)
  rcases Result.bind_eq_error.1 hsort with hstable | ⟨_, _, hdone⟩
  · rw [stableSort, fx.sortBy.sorts horder] at hstable
    cases hstable
  · cases hdone

/-- Some extreme exists in one order of the values exactly when it does in another. -/
theorem isSome_of_perm {ws : List Value} (hperm : ws.Perm vs) :
    (minBy ws).isSome = (minBy vs).isSome ∧ (maxBy ws).isSome = (maxBy vs).isSome := by
  cases ws with
  | nil =>
    rw [List.nil_perm.1 hperm]
    exact ⟨rfl, rfl⟩
  | cons w ws =>
    cases vs with
    | nil => exact absurd hperm.length_eq (Nat.succ_ne_zero _)
    | cons v vs => exact ⟨rfl, rfl⟩

/-- The extremes of two orders of the values are extremes of the values. -/
theorem Apart.extremes (h : Apart vs) {ws : List Value} (hperm : ws.Perm vs) :
    (∀ m, minBy ws = some m → m ∈ vs ∧ ∀ a ∈ vs, valueOrder m a ≠ .gt) ∧
      ∀ m, maxBy ws = some m → m ∈ vs ∧ ∀ a ∈ vs, valueOrder a m ≠ .gt := by
  have hP : ∀ a ∈ ws, a ∈ vs := fun a ha => hperm.mem_iff.1 ha
  constructor <;> intro m hm
  · rw [minBy_eq_least] at hm
    obtain ⟨hmem, hle⟩ := Keyset.least_spec h.order hP hm
    exact ⟨hP m hmem, fun a ha => hle a (hperm.mem_iff.2 ha)⟩
  · rw [maxBy_eq_greatest] at hm
    obtain ⟨hmem, hle⟩ := Keyset.greatest_spec h.order hP hm
    exact ⟨hP m hmem, fun a ha => hle a (hperm.mem_iff.2 ha)⟩

/-- What holds of all pairs of extremes holds of those of two orders of the values. -/
theorem Apart.unordered (h : Apart vs) {same : Option Value → Option Value → Prop}
    (hnone : same none none)
    (hmin : ∀ a ∈ vs, ∀ b ∈ vs, (∀ c ∈ vs, valueOrder a c ≠ .gt) →
      (∀ c ∈ vs, valueOrder b c ≠ .gt) → same (some a) (some b))
    (hmax : ∀ a ∈ vs, ∀ b ∈ vs, (∀ c ∈ vs, valueOrder c a ≠ .gt) →
      (∀ c ∈ vs, valueOrder c b ≠ .gt) → same (some a) (some b)) : Unordered same vs := by
  intro ws hperm
  obtain ⟨hminw, hmaxw⟩ := h.extremes hperm
  obtain ⟨hminv, hmaxv⟩ := h.extremes (List.Perm.refl vs)
  obtain ⟨hsomemin, hsomemax⟩ := isSome_of_perm hperm
  constructor
  · cases hw : minBy ws with
    | none =>
      rw [hw, Option.isSome_none, eq_comm, Option.isSome_eq_false_iff, Option.isNone_iff_eq_none]
        at hsomemin
      rw [hsomemin]
      exact hnone
    | some m =>
      rw [hw, Option.isSome_some, eq_comm, Option.isSome_iff_exists] at hsomemin
      obtain ⟨m', hm'⟩ := hsomemin
      rw [hm']
      exact hmin m (hminw m hw).1 m' (hminv m' hm').1 (hminw m hw).2 (hminv m' hm').2
  · cases hw : maxBy ws with
    | none =>
      rw [hw, Option.isSome_none, eq_comm, Option.isSome_eq_false_iff, Option.isNone_iff_eq_none]
        at hsomemax
      rw [hsomemax]
      exact hnone
    | some m =>
      rw [hw, Option.isSome_some, eq_comm, Option.isSome_iff_exists] at hsomemax
      obtain ⟨m', hm'⟩ := hsomemax
      rw [hm']
      exact hmax m (hmaxw m hw).1 m' (hmaxv m' hm').1 (hmaxw m hw).2 (hmaxv m' hm').2

/-- Up to the order's own equality, MIN and MAX do not depend on the order of the rows. -/
theorem Apart.unordered_equal (h : Apart vs) : Unordered EqualValues vs :=
  h.unordered trivial
    (fun a ha b hb hla hlb => h.order.antisymm ha hb (hla b hb) (hlb a ha))
    (fun a ha b hb hga hgb => h.order.antisymm ha hb (hgb a ha) (hga b hb))

/-- They are the very same values exactly when only equal ones tie. -/
theorem Apart.unordered_iff (h : Apart vs) : Unordered (· = ·) vs ↔ TiesAgree vs := by
  constructor
  · intro hsame
    constructor
    · intro a ha b hb hla hlb
      -- each of the two comes first in some order of the rows
      have hfirst : ∀ a ∈ vs, (∀ c ∈ vs, valueOrder a c ≠ .gt) → some a = minBy vs := by
        intro a ha hla
        rw [← (hsame (a :: vs.erase a) (List.perm_cons_erase ha).symm).1, minBy_eq_least,
          Keyset.least_cons (fun b hb => hla b (List.mem_of_mem_erase hb))]
      exact Option.some.inj ((hfirst a ha hla).trans (hfirst b hb hlb).symm)
    · intro a ha b hb hga hgb
      have hlast : ∀ a ∈ vs, (∀ c ∈ vs, valueOrder c a ≠ .gt) → some a = maxBy vs := by
        intro a ha hga
        have hperm : (vs.erase a ++ [a]).Perm vs :=
          (List.perm_append_singleton a _).trans (List.perm_cons_erase ha).symm
        rw [← (hsame _ hperm).2, maxBy_eq_greatest, Keyset.greatest_concat
          (fun b hb => hga b (List.mem_of_mem_erase hb)) (fun b hb => List.mem_of_mem_erase hb)
          h.order]
      exact Option.some.inj ((hlast a ha hga).trans (hlast b hb hgb).symm)
  · rintro ⟨hmin, hmax⟩
    exact h.unordered rfl (fun a ha b hb hla hlb => congrArg some (hmin a ha b hb hla hlb))
      (fun a ha b hb hga hgb => congrArg some (hmax a ha b hb hga hgb))

end Together

/-- Values obey the laws of a total preorder, make comparators the standard sort accepts and have
one MIN and one MAX up to equality, exactly when no two different integers among them round to a
float among them. MIN and MAX are the same values in every order of the rows exactly when, besides,
only equal values tie. -/
theorem valueOrder_preorder_iff (vs : List Value) :
    (((∀ a ∈ vs, ∀ b ∈ vs, ∀ c ∈ vs, Laws a b c) ∧ Sortable vs ∧ Unordered EqualValues vs) ↔
      Apart vs) ∧
    (((∀ a ∈ vs, ∀ b ∈ vs, ∀ c ∈ vs, Laws a b c) ∧ Sortable vs ∧ Unordered (· = ·) vs) ↔
      Apart vs ∧ TiesAgree vs) := by
  have hlaws : (∀ a ∈ vs, ∀ b ∈ vs, ∀ c ∈ vs, Laws a b c) ↔ Apart vs :=
    forall₂_congr fun a _ => forall₂_congr fun b _ => forall₂_congr fun c _ => laws_iff a b c
  rw [hlaws]
  constructor
  · exact ⟨fun h => h.1, fun h => ⟨h, h.sortable, h.unordered_equal⟩⟩
  · constructor
    · exact fun ⟨h, _, hsame⟩ => ⟨h, h.unordered_iff.1 hsame⟩
    · exact fun ⟨h, hties⟩ => ⟨h, h.sortable, h.unordered_iff.2 hties⟩

/-- `2^53` and `2^53 + 1` are both equal to the double `2^53` and differ. -/
theorem rounding_breaks_equality :
    valueOrder (.i64 9007199254740993) (.f64 ⟨0x4340000000000000⟩) = .eq
      ∧ valueOrder (.f64 ⟨0x4340000000000000⟩) (.i64 9007199254740992) = .eq
      ∧ valueOrder (.i64 9007199254740993) (.i64 9007199254740992) = .gt := by
  decide

/-- One and one as a float are equal, and MIN takes the first of them. -/
example : minBy [.i64 1, .f64 ⟨0x3ff0000000000000⟩] = some (.i64 1) ∧
    minBy [.f64 ⟨0x3ff0000000000000⟩, .i64 1] = some (.f64 ⟨0x3ff0000000000000⟩) := by
  decide

end Edb.Query
