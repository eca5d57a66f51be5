import Mathlib.Algebra.BigOperators.Group.List.Basic
import Edb.Query.Stream

/-!
# Aggregates over integers

SUM adds from the left and checks every addition, so it fails on a prefix that overflows even
where the total would fit. COUNT, MIN and MAX depend on the values only. A SUM that is returned is
the total, so two orders of a group that both return one return the same.

* **The integer aggregates** (`integer_aggregates`): what each returns over the rows of a group
  whose arguments are integers or NULL, and what another order of the rows changes.
-/

namespace Edb.Query

open Edb.Types Edb.Proto Edb.Lib

/-- The integers among the arguments. -/
def intArgs (vals : List Value) : List Int64 :=
  vals.filterMap fun
    | .i64 n => some n
    | _ => none

/-- An argument that an integer aggregate meets. -/
def IntOrNull (v : Value) : Prop := v = .null ∨ ∃ n, v = .i64 n

/-- The sum as a number. -/
def total (ns : List Int64) : Int := (ns.map Int64.toInt).sum

/-- A number that an `i64` holds. -/
def Fits (n : Int) : Prop := -2 ^ 63 ≤ n ∧ n < 2 ^ 63

/-- The arguments that are not NULL are the integers. -/
theorem filter_notNull {vals : List Value} (h : ∀ v ∈ vals, IntOrNull v) :
    vals.filter (fun v => !v.isNull) = (intArgs vals).map .i64 := by
  induction vals with
  | nil => rfl
  | cons v vals ih =>
    have ih := ih (fun v hv => h v (List.mem_cons_of_mem _ hv))
    rcases h v List.mem_cons_self with rfl | ⟨n, rfl⟩
    · exact ih
    · show Value.i64 n :: vals.filter _ = Value.i64 n :: (intArgs vals).map .i64
      rw [ih]

/-! ## Sums -/

theorem total_cons (n : Int64) (ns : List Int64) : total (n :: ns) = n.toInt + total ns := rfl

theorem checked_of_fits {n : Int} (h : Fits n) : checked n = some (Int64.ofInt n) := if_pos h

theorem checked_of_not_fits {n : Int} (h : ¬ Fits n) : checked n = none := if_neg h

/-- While no prefix overflows the accumulator is the sum so far. -/
theorem sumI64_fits {ns : List Int64} {acc : Int64}
    (h : ∀ p, p <+: ns → Fits (acc.toInt + total p)) :
    ∃ s, sumI64 acc (ns.map .i64) = .ok s ∧ s.toInt = acc.toInt + total ns := by
  induction ns generalizing acc with
  | nil => exact ⟨acc, rfl, (Int.add_zero _).symm⟩
  | cons n ns ih =>
    have hn : Fits (acc.toInt + n.toInt) := by
      have := h [n] ⟨ns, rfl⟩
      rwa [total_cons, show total [] = 0 from rfl, Int.add_zero] at this
    have hacc : (Int64.ofInt (acc.toInt + n.toInt)).toInt = acc.toInt + n.toInt :=
      Int64.toInt_ofInt_of_le hn.1 hn.2
    have hrest : ∀ p, p <+: ns → Fits ((Int64.ofInt (acc.toInt + n.toInt)).toInt + total p) := by
      intro p hp
      have := h (n :: p) ((List.prefix_cons_inj n).2 hp)
      rwa [total_cons, ← Int.add_assoc, ← hacc] at this
    obtain ⟨s, hs, hsum⟩ := ih hrest
    refine ⟨s, ?_, by rw [hsum, hacc, total_cons, Int.add_assoc]⟩
    rw [List.map_cons, sumI64, checked_of_fits hn]
    exact hs

/-- The first prefix that overflows stops the sum. -/
theorem sumI64_overflow {ns : List Int64} {acc : Int64} (hacc : Fits acc.toInt)
    (h : ∃ p, p <+: ns ∧ ¬ Fits (acc.toInt + total p)) :
    sumI64 acc (ns.map .i64) = .error (.overflow "sum") := by
  induction ns generalizing acc with
  | nil =>
    obtain ⟨p, hp, hno⟩ := h
    obtain rfl := List.prefix_nil.1 hp
    exact absurd ((Int.add_zero acc.toInt).symm ▸ hacc) hno
  | cons n ns ih =>
    rw [List.map_cons, sumI64]
    by_cases hn : Fits (acc.toInt + n.toInt)
    · have hstep : (Int64.ofInt (acc.toInt + n.toInt)).toInt = acc.toInt + n.toInt :=
        Int64.toInt_ofInt_of_le hn.1 hn.2
      rw [checked_of_fits hn]
      apply ih (by rwa [hstep])
      obtain ⟨p, hp, hno⟩ := h
      rcases List.prefix_cons_iff.1 hp with rfl | ⟨q, rfl, hq⟩
      · exact absurd ((Int.add_zero acc.toInt).symm ▸ hacc) hno
      · refine ⟨q, hq, ?_⟩
        rwa [hstep, Int.add_assoc, ← total_cons]
    · rw [checked_of_not_fits hn]

theorem any_isF64 (ns : List Int64) : (ns.map Value.i64).any isF64 = false := by
  induction ns with
  | nil => rfl
  | cons n ns ih => rw [List.map_cons, List.any_cons, ih]; rfl

theorem sum_ints (fx : Intrinsics) {ns : List Int64} (hne : ns ≠ []) :
    sum fx (ns.map .i64) = (do let s ← sumI64 0 (ns.map .i64); pure (.i64 s)) := by
  have hmap : ns.map Value.i64 ≠ [] := fun h => hne (List.map_eq_nil_iff.1 h)
  rw [sum, if_neg hmap, any_isF64]
  rfl

/-- No prefix of the integers overflows, in the order they come in. -/
def PrefixesFit (ns : List Int64) : Prop := ∀ p, p <+: ns → Fits (total p)

/-- What SUM returns over some integers. -/
structure SumIs (ns : List Int64) (r : Except EvalError Value) : Prop where
  none : ns = [] → r = .ok .null
  total : ns ≠ [] → PrefixesFit ns → ∃ s, r = .ok (.i64 s) ∧ s.toInt = total ns
  overflow : ¬ PrefixesFit ns → r = .error (.overflow "sum")

/-- SUM over integers is the checked sum in row order. -/
theorem sum_is (fx : Intrinsics) (ns : List Int64) : SumIs ns (sum fx (ns.map .i64)) := by
  have hzero : ∀ p, total p = (0 : Int64).toInt + total p := fun p => (Int.zero_add _).symm
  refine ⟨?_, ?_, ?_⟩
  · rintro rfl
    rfl
  · intro hne hfits
    have hacc : ∀ p, p <+: ns → Fits ((0 : Int64).toInt + total p) := by
      intro p hp
      rw [← hzero]
      exact hfits p hp
    obtain ⟨s, hs, hsum⟩ := sumI64_fits hacc
    rw [sum_ints fx hne, hs]
    exact ⟨s, rfl, hsum.trans (hzero ns).symm⟩
  · intro hover
    have hne : ns ≠ [] := by
      rintro rfl
      apply hover
      intro p hp
      rw [List.prefix_nil.1 hp]
      exact ⟨by decide, by decide⟩
    rw [PrefixesFit, not_forall] at hover
    obtain ⟨p, hp⟩ := hover
    rw [Classical.not_imp] at hp
    rw [sum_ints fx hne, sumI64_overflow ⟨by decide, by decide⟩ ⟨p, hp.1, hzero p ▸ hp.2⟩]
    rfl

/-! ## Extrema -/

/-- A fold that keeps one of two integers at each step keeps an extreme one. -/
theorem foldl_extreme {f : Value → Value → Value} {le : Int64 → Int64 → Prop}
    (hrefl : ∀ a, le a a) (htrans : ∀ a b c, le a b → le b c → le a c)
    (hf : ∀ a b, ∃ c, f (.i64 a) (.i64 b) = .i64 c ∧ (c = a ∨ c = b) ∧ le c a ∧ le c b)
    (n : Int64) (ns : List Int64) :
    ∃ m ∈ n :: ns, (ns.map .i64).foldl f (.i64 n) = .i64 m ∧ ∀ k ∈ n :: ns, le m k := by
  induction ns generalizing n with
  | nil =>
    refine ⟨n, List.mem_cons_self, rfl, fun k hk => ?_⟩
    rw [List.mem_singleton.1 hk]
    exact hrefl n
  | cons b ns ih =>
    obtain ⟨c, hc, hmem, hca, hcb⟩ := hf n b
    obtain ⟨m, hm, hfold, hle⟩ := ih c
    refine ⟨m, ?_, ?_, ?_⟩
    · rcases List.mem_cons.1 hm with rfl | hm
      · rcases hmem with rfl | rfl
        · exact List.mem_cons_self
        · exact List.mem_cons_of_mem _ List.mem_cons_self
      · exact List.mem_cons_of_mem _ (List.mem_cons_of_mem _ hm)
    · rw [List.map_cons, List.foldl_cons, hc]
      exact hfold
    · have hmc := hle c List.mem_cons_self
      intro k hk
      rcases List.mem_cons.1 hk with rfl | hk
      · exact htrans _ _ _ hmc hca
      · rcases List.mem_cons.1 hk with rfl | hk
        · exact htrans _ _ _ hmc hcb
        · exact hle k (List.mem_cons_of_mem _ hk)

/-- The least of some integers, NULL over none; `le` may be the order or its reverse. -/
def Extreme (le : Int64 → Int64 → Prop) (ns : List Int64) (v : Value) : Prop :=
  (ns = [] ∧ v = .null) ∨ ∃ m ∈ ns, v = .i64 m ∧ ∀ k ∈ ns, le m k

def AtMost (a b : Int64) : Prop := a.toInt ≤ b.toInt

def AtLeast (a b : Int64) : Prop := b.toInt ≤ a.toInt

/-- MIN over integers is the least of them, NULL over none. -/
theorem minBy_extreme (ns : List Int64) :
    Extreme AtMost ns ((minBy (ns.map .i64)).getD .null) := by
  have hrefl : ∀ a, AtMost a a := fun a => Int.le_refl a.toInt
  have htrans : ∀ a b c, AtMost a b → AtMost b c → AtMost a c := fun _ _ _ => Int.le_trans
  cases ns with
  | nil => exact .inl ⟨rfl, rfl⟩
  | cons n ns =>
    refine .inr (foldl_extreme hrefl htrans ?_ n ns)
    intro a b
    by_cases hgt : valueOrder (.i64 a) (.i64 b) = .gt
    · have hlt := Int.compare_eq_gt.1 hgt
      exact ⟨b, if_pos hgt, .inr rfl, Int.le_of_lt hlt, hrefl b⟩
    · exact ⟨a, if_neg hgt, .inl rfl, hrefl a, Int.compare_ne_gt.1 hgt⟩

/-- MAX over integers is the greatest of them, NULL over none. -/
theorem maxBy_extreme (ns : List Int64) :
    Extreme AtLeast ns ((maxBy (ns.map .i64)).getD .null) := by
  have hrefl : ∀ a, AtLeast a a := fun a => Int.le_refl a.toInt
  have htrans : ∀ a b c, AtLeast a b → AtLeast b c → AtLeast a c :=
    fun _ _ _ h h' => Int.le_trans h' h
  cases ns with
  | nil => exact .inl ⟨rfl, rfl⟩
  | cons n ns =>
    refine .inr (foldl_extreme hrefl htrans ?_ n ns)
    intro a b
    by_cases hgt : valueOrder (.i64 a) (.i64 b) = .gt
    · have hlt := Int.compare_eq_gt.1 hgt
      exact ⟨a, if_pos hgt, .inl rfl, hrefl a, Int.le_of_lt hlt⟩
    · exact ⟨b, if_neg hgt, .inr rfl, Int.compare_ne_gt.1 hgt, hrefl b⟩

/-- The extreme of the same integers in another order is the same. -/
theorem Extreme.unique {le : Int64 → Int64 → Prop} (hanti : ∀ a b, le a b → le b a → a = b)
    {ns ns' : List Int64} {v v' : Value} (hperm : ns'.Perm ns) (h : Extreme le ns v)
    (h' : Extreme le ns' v') : v' = v := by
  rcases h with ⟨rfl, rfl⟩ | ⟨m, hm, rfl, hle⟩
  · rcases h' with ⟨_, rfl⟩ | ⟨m', hm', _⟩
    · rfl
    · rw [List.perm_nil.1 hperm] at hm'
      cases hm'
  · rcases h' with ⟨hnil, _⟩ | ⟨m', hm', rfl, hle'⟩
    · rw [hnil] at hperm
      rw [List.nil_perm.1 hperm] at hm
      cases hm
    · rw [hanti m' m (hle' m (hperm.mem_iff.2 hm)) (hle m' (hperm.mem_iff.1 hm'))]

/-! ## Groups -/

section Group

variable {fx : Intrinsics} {arg : Expr} {shape : Shape} {members members' : List Row}
  {vals vals' : List Value}

theorem computeAgg_ints (heval : members.mapM (fun row => eval fx row shape arg) = .ok vals)
    (hint : ∀ v ∈ vals, IntOrNull v) (func : AggFunc) :
    computeAgg fx (.agg func arg) members shape = applyAgg fx func ((intArgs vals).map .i64) := by
  rw [computeAgg, heval, Result.ok_bind, filter_notNull hint]

/-- The arguments of the rows in another order are the arguments in another order. -/
theorem mapM_perm (heval : members.mapM (fun row => eval fx row shape arg) = .ok vals)
    (hperm : members'.Perm members) :
    ∃ vals', members'.mapM (fun row => eval fx row shape arg) = .ok vals' ∧ vals'.Perm vals := by
  have hall := Result.mapM_eq_ok.1 heval
  obtain ⟨vals', hall', hvals⟩ := List.perm_comp_forall₂ hperm hall
  exact ⟨vals', Result.mapM_eq_ok.2 hall', hvals⟩

theorem intArgs_perm (h : vals'.Perm vals) : (intArgs vals').Perm (intArgs vals) := h.filterMap _

theorem total_perm {ns ns' : List Int64} (h : ns'.Perm ns) : total ns' = total ns :=
  (h.map _).sum_eq

/-- SUM is the total of the integers while no prefix of them overflows, else the overflow error,
and NULL over none; COUNT, MIN and MAX are the number, the least and the greatest of them. Another
order of the rows changes none of the last three, and no sum that both orders return. -/
theorem integer_aggregates (heval : members.mapM (fun row => eval fx row shape arg) = .ok vals)
    (hint : ∀ v ∈ vals, IntOrNull v) :
    SumIs (intArgs vals) (computeAgg fx (.agg .sum arg) members shape)
      ∧ (∃ c, computeAgg fx (.agg .count arg) members shape = .ok (.i64 c)
        ∧ (members.length < 2 ^ 63 → c.toInt = (intArgs vals).length))
      ∧ (∃ v, computeAgg fx (.agg .min arg) members shape = .ok v
        ∧ Extreme AtMost (intArgs vals) v)
      ∧ (∃ v, computeAgg fx (.agg .max arg) members shape = .ok v
        ∧ Extreme AtLeast (intArgs vals) v)
      ∧ ∀ members', members'.Perm members →
        (∀ func ∈ [AggFunc.count, .min, .max],
          computeAgg fx (.agg func arg) members' shape =
            computeAgg fx (.agg func arg) members shape)
        ∧ ∀ v v', computeAgg fx (.agg .sum arg) members shape = .ok v →
          computeAgg fx (.agg .sum arg) members' shape = .ok v' → v' = v := by
  simp only [computeAgg_ints heval hint]
  refine ⟨sum_is fx _, ⟨_, rfl, ?_⟩, ⟨_, rfl, minBy_extreme _⟩, ⟨_, rfl, maxBy_extreme _⟩, ?_⟩
  · intro hlen
    have hvals : vals.length = members.length := (Result.mapM_eq_ok.1 heval).length_eq.symm
    have hle : (intArgs vals).length ≤ vals.length := List.length_filterMap_le _ _
    rw [List.length_map]
    exact Int64.toInt_ofNat_of_lt (by omega)
  · intro members' hperm
    obtain ⟨vals', heval', hvals⟩ := mapM_perm heval hperm
    have hint' : ∀ v ∈ vals', IntOrNull v := fun v hv => hint v (hvals.mem_iff.1 hv)
    have hperm' := intArgs_perm hvals
    simp only [computeAgg_ints heval' hint']
    have hanti : ∀ a b : Int64, AtMost a b → AtMost b a → a = b :=
      fun a b h h' => Int64.toInt_inj.1 (Int.le_antisymm h h')
    have hanti' : ∀ a b : Int64, AtLeast a b → AtLeast b a → a = b :=
      fun a b h h' => Int64.toInt_inj.1 (Int.le_antisymm h' h)
    refine ⟨?_, ?_⟩
    · intro func hfunc
      simp only [List.mem_cons, List.not_mem_nil, or_false] at hfunc
      rcases hfunc with rfl | rfl | rfl
      · show Except.ok (Value.i64 (Int64.ofNat _)) = .ok (.i64 (Int64.ofNat _))
        rw [List.length_map, List.length_map, hperm'.length_eq]
      · exact congrArg Except.ok ((minBy_extreme _).unique hanti hperm' (minBy_extreme _))
      · exact congrArg Except.ok ((maxBy_extreme _).unique hanti' hperm' (maxBy_extreme _))
    · intro v v' hv hv'
      have hs := sum_is fx (intArgs vals)
      have hs' := sum_is fx (intArgs vals')
      have hv : sum fx ((intArgs vals).map .i64) = .ok v := hv
      have hv' : sum fx ((intArgs vals').map .i64) = .ok v' := hv'
      by_cases hnil : intArgs vals = []
      · have hnil' : intArgs vals' = [] := List.perm_nil.1 (hnil ▸ hperm')
        rw [hs.none hnil] at hv
        rw [hs'.none hnil'] at hv'
        cases hv
        cases hv'
        rfl
      · have hnil' : intArgs vals' ≠ [] := fun h => hnil (List.nil_perm.1 (h ▸ hperm'))
        -- a sum that is returned had no prefix that overflows
        have hfits : PrefixesFit (intArgs vals) := by
          by_contra hover
          rw [hs.overflow hover] at hv
          cases hv
        have hfits' : PrefixesFit (intArgs vals') := by
          by_contra hover
          rw [hs'.overflow hover] at hv'
          cases hv'
        obtain ⟨n, hn, hsum⟩ := hs.total hnil hfits
        obtain ⟨n', hn', hsum'⟩ := hs'.total hnil' hfits'
        rw [hn] at hv
        rw [hn'] at hv'
        cases hv
        cases hv'
        rw [Int64.toInt_inj.1 (hsum'.trans ((total_perm hperm').trans hsum.symm))]

end Group

/-- One column of integers. -/
def ledgerShape : Shape := ⟨[⟨none, "n"⟩]⟩

/-- The least of three arguments, one of them NULL. -/
theorem integer_aggregates_ledger :
    computeAgg integerIntrinsics (.agg .min (.column none "n")) [[.i64 3], [.null], [.i64 2]]
      ledgerShape = .ok (.i64 2) := by
  have heval : [[Value.i64 3], [.null], [.i64 2]].mapM
      (fun row => eval integerIntrinsics row ledgerShape (.column none "n"))
      = .ok [.i64 3, .null, .i64 2] := by rfl
  have hint : ∀ v ∈ [Value.i64 3, .null, .i64 2], IntOrNull v := by
    intro v hv
    simp only [List.mem_cons, List.not_mem_nil, or_false] at hv
    rcases hv with rfl | rfl | rfl
    · exact .inr ⟨3, rfl⟩
    · exact .inl rfl
    · exact .inr ⟨2, rfl⟩
  obtain ⟨-, -, ⟨v, hv, hleast⟩, -⟩ := integer_aggregates heval hint
  rw [hv]
  obtain ⟨hnil, -⟩ | ⟨m, hm, rfl, hle⟩ := hleast
  · cases hnil
  · have hmem : m = 3 ∨ m = 2 := by simpa [intArgs] using hm
    rcases hmem with rfl | rfl
    · have hle : (3 : Int64).toInt ≤ (2 : Int64).toInt := hle 2 (by decide)
      exact absurd hle (by decide)
    · rfl

/-- A total that fits, in an order with a prefix that does not, and in one without; and a sum
over no values, which is not zero. -/
theorem sum_depends_on_order :
    computeAgg integerIntrinsics (.agg .sum (.column none "n"))
        [[.i64 Int64.maxValue], [.i64 1], [.i64 (-1)]] ledgerShape = .error (.overflow "sum")
      ∧ computeAgg integerIntrinsics (.agg .sum (.column none "n"))
        [[.i64 1], [.i64 (-1)], [.i64 Int64.maxValue]] ledgerShape = .ok (.i64 Int64.maxValue)
      ∧ computeAgg integerIntrinsics (.agg .sum (.column none "n")) [] ledgerShape = .ok .null := by
  decide +kernel

end Edb.Query
