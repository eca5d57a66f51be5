import Mathlib.Data.List.Basic
import Mathlib.Data.List.Forall2
import Mathlib.Data.Nat.Basic
import Mathlib.Order.Lattice
import Mathlib.Algebra.GroupWithZero.Nat

/-!
# Order-preserving encodings

An encoding into strings over an ordered alphabet is *order-embedding* when it decides a
comparison on the spot: two encoded values followed by anything compare as the values do,
and only when these are equal does what follows matter (`Embeds`). The property is stronger
than monotonicity, and it is what makes plain concatenation an encoding of sequences
(`Embeds.compareLex_flatMap`), and in such an encoding a shorter sequence is a prefix only of
those that start with its elements (`Embeds.isPrefix_flatMap_iff`).

* fixed-width strings (`compareLex_append`), and big-endian digits among them
  (`compareLex_digits`);
* strings of any length, escaped and terminated (`escape_embeds`).
-/

namespace Edb.Lib.Lex

variable {α β : Type}

/-- Two encoded values, whatever follows them, compare as the values; what follows decides
only between equal ones. -/
def Embeds (cmpβ : β → β → Ordering) (cmp : α → α → Ordering) (e : α → List β)
    (P : α → Prop) : Prop :=
  ∀ x y, P x → P y → ∀ s t : List β,
    (e x ++ s).compareLex cmpβ (e y ++ t) = (cmp x y).then (s.compareLex cmpβ t)

section Comparisons

variable {cmp : β → β → Ordering}

/-- Strings of one length compare before what follows them. -/
theorem compareLex_append {a b : List β} (h : a.length = b.length) (s t : List β) :
    (a ++ s).compareLex cmp (b ++ t) = (a.compareLex cmp b).then (s.compareLex cmp t) := by
  induction a generalizing b with
  | nil =>
    have hb : b = [] := List.length_eq_zero_iff.1 h.symm
    subst hb
    rfl
  | cons x a ih =>
    cases b with
    | nil => cases h
    | cons y b =>
      have hlen : a.length = b.length := by simpa using h
      rw [List.cons_append, List.cons_append, List.compareLex_cons_cons,
        List.compareLex_cons_cons, ih hlen, Ordering.then_assoc]

/-- Equal first symbols leave the comparison to the rest. -/
theorem compareLex_cons_of_eq {x y : β} (h : cmp x y = .eq) (s t : List β) :
    (x :: s).compareLex cmp (y :: t) = s.compareLex cmp t := by
  rw [List.compareLex_cons_cons, h]
  rfl

/-- Different first symbols decide the comparison. -/
theorem compareLex_cons_of_ne {x y : β} (h : cmp x y ≠ .eq) (s t : List β) :
    (x :: s).compareLex cmp (y :: t) = cmp x y := by
  rw [List.compareLex_cons_cons]
  cases hxy : cmp x y with
  | lt => rfl
  | eq => exact absurd hxy h
  | gt => rfl

end Comparisons

/-! ## Sequences by concatenation -/

section Sequences

variable {cmpβ : β → β → Ordering} {cmp : α → α → Ordering} {e : α → List β} {P : α → Prop}

/-- Concatenated encodings compare as the sequences do, a proper prefix first. -/
theorem Embeds.compareLex_flatMap (he : Embeds cmpβ cmp e P) (hne : ∀ x, P x → e x ≠ []) :
    ∀ {l m : List α}, (∀ x ∈ l, P x) → (∀ y ∈ m, P y) →
      (l.flatMap e).compareLex cmpβ (m.flatMap e) = l.compareLex cmp m
  | [], [], _, _ => rfl
  | [], y :: m, _, hm => by
    obtain ⟨b, bs, hb⟩ := List.exists_cons_of_ne_nil (hne y (hm y (by simp)))
    rw [List.flatMap_cons, hb]
    rfl
  | x :: l, [], hl, _ => by
    obtain ⟨b, bs, hb⟩ := List.exists_cons_of_ne_nil (hne x (hl x (by simp)))
    rw [List.flatMap_cons, hb]
    rfl
  | x :: l, y :: m, hl, hm => by
    have ih := Embeds.compareLex_flatMap he hne (fun z hz => hl z (List.mem_cons_of_mem _ hz))
      (fun z hz => hm z (List.mem_cons_of_mem _ hz))
    rw [List.flatMap_cons, List.flatMap_cons, he x y (hl x (by simp)) (hm y (by simp)),
      List.compareLex_cons_cons, ih]

/-- Two encoded sequences of one length, whatever follows them, are the same string only if their
elements are equal. -/
theorem Embeds.flatMap_append_inj (he : Embeds cmpβ cmp e P)
    (heq : ∀ s t : List β, s.compareLex cmpβ t = .eq ↔ s = t) {s t : List β} :
    ∀ {l m : List α}, (∀ x ∈ l, P x) → (∀ y ∈ m, P y) → l.length = m.length →
      (l.flatMap e ++ s = m.flatMap e ++ t ↔ List.Forall₂ (fun x y => cmp x y = .eq) l m ∧ s = t)
  | [], [], _, _, _ => by simp
  | [], _ :: _, _, _, hlen => by cases hlen
  | _ :: _, [], _, _, hlen => by cases hlen
  | x :: l, y :: m, hl, hm, hlen => by
    have ih := Embeds.flatMap_append_inj he heq (s := s) (t := t)
      (fun z hz => hl z (List.mem_cons_of_mem _ hz))
      (fun z hz => hm z (List.mem_cons_of_mem _ hz)) (Nat.succ.inj hlen)
    rw [List.flatMap_cons, List.flatMap_cons, List.append_assoc, List.append_assoc, ← heq,
      he x y (hl x (by simp)) (hm y (by simp)), Ordering.then_eq_eq, heq, ih,
      List.forall₂_cons, and_assoc]

/-- An encoded sequence is a prefix of another, whatever follows that, exactly when the other
starts with its elements. -/
theorem Embeds.isPrefix_flatMap_iff (he : Embeds cmpβ cmp e P)
    (heq : ∀ s t : List β, s.compareLex cmpβ t = .eq ↔ s = t) {l m : List α} {t : List β}
    (hl : ∀ x ∈ l, P x) (hm : ∀ y ∈ m, P y) (hlen : l.length ≤ m.length) :
    l.flatMap e <+: m.flatMap e ++ t ↔
      List.Forall₂ (fun x y => cmp x y = .eq) (m.take l.length) l := by
  have hsplit : m.flatMap e ++ t =
      (m.take l.length).flatMap e ++ ((m.drop l.length).flatMap e ++ t) := by
    rw [← List.append_assoc, ← List.flatMap_append, List.take_append_drop]
  have hinj := fun s : List β => he.flatMap_append_inj heq
    (s := (m.drop l.length).flatMap e ++ t) (t := s)
    (fun y hy => hm y (List.mem_of_mem_take hy)) hl (List.length_take_of_le hlen)
  rw [hsplit]
  constructor
  · rintro ⟨s, hs⟩
    exact ((hinj s).1 hs.symm).1
  · exact fun h => ⟨_, ((hinj _).2 ⟨h, rfl⟩).symm⟩

end Sequences

/-! ## Big-endian digits -/

section Digits

variable {base : Nat}

/-- The `n` big-endian digits of `v`. -/
def digits (base : Nat) : Nat → Nat → List Nat
  | 0, _ => []
  | n + 1, v => v / base ^ n :: digits base n (v % base ^ n)

/-- The number the digits spell. -/
def ofDigits (base : Nat) : List Nat → Nat
  | [] => 0
  | d :: ds => d * base ^ ds.length + ofDigits base ds

@[simp] theorem length_digits (base n v : Nat) : (digits base n v).length = n := by
  induction n generalizing v with
  | zero => rfl
  | succ n ih => simp [digits, ih]

theorem pow_pos_of_lt {n v : Nat} (h : v < base ^ (n + 1)) : 0 < base ^ n := by
  rcases Nat.eq_zero_or_pos (base ^ n) with h0 | h0
  · rw [Nat.pow_succ, h0, Nat.zero_mul] at h
    exact absurd h (Nat.not_lt_zero _)
  · exact h0

theorem div_pow_lt {n v : Nat} (h : v < base ^ (n + 1)) : v / base ^ n < base :=
  Nat.div_lt_of_lt_mul (by rwa [Nat.pow_succ] at h)

/-- The digits of `v` spell `v`. -/
theorem ofDigits_digits (n : Nat) {v : Nat} (h : v < base ^ n) :
    ofDigits base (digits base n v) = v := by
  induction n generalizing v with
  | zero =>
    have hv : v = 0 := by simpa using h
    subst hv
    rfl
  | succ n ih =>
    have hpos := pow_pos_of_lt h
    rw [digits, ofDigits, length_digits, ih (Nat.mod_lt _ hpos), Nat.mul_comm]
    exact Nat.div_add_mod v (base ^ n)

theorem digits_lt (n : Nat) {v : Nat} (h : v < base ^ n) : ∀ d ∈ digits base n v, d < base := by
  induction n generalizing v with
  | zero => simp [digits]
  | succ n ih =>
    intro d hd
    have hpos := pow_pos_of_lt h
    rcases List.mem_cons.1 hd with rfl | hd
    · exact div_pow_lt h
    · exact ih (Nat.mod_lt _ hpos) d hd

theorem ofDigits_lt {ds : List Nat} (h : ∀ d ∈ ds, d < base) :
    ofDigits base ds < base ^ ds.length := by
  induction ds with
  | nil => exact Nat.one_pos
  | cons d ds ih =>
    have hd : d + 1 ≤ base := h d (by simp)
    have hds := ih (fun e he => h e (List.mem_cons_of_mem _ he))
    calc ofDigits base (d :: ds) = d * base ^ ds.length + ofDigits base ds := rfl
      _ < d * base ^ ds.length + base ^ ds.length := by omega
      _ = (d + 1) * base ^ ds.length := by rw [Nat.add_mul, Nat.one_mul]
      _ ≤ base * base ^ ds.length := Nat.mul_le_mul_right _ hd
      _ = base ^ (d :: ds).length := by rw [List.length_cons, Nat.pow_succ, Nat.mul_comm]

/-- Digits are those of the number they spell. -/
theorem digits_ofDigits {ds : List Nat} (h : ∀ d ∈ ds, d < base) :
    digits base ds.length (ofDigits base ds) = ds := by
  induction ds with
  | nil => rfl
  | cons d ds ih =>
    have hds : ∀ e ∈ ds, e < base := fun e he => h e (List.mem_cons_of_mem _ he)
    have hlt := ofDigits_lt hds
    have hpos : 0 < base ^ ds.length := Nat.lt_of_le_of_lt (Nat.zero_le _) hlt
    have hdiv : ofDigits base (d :: ds) / base ^ ds.length = d := by
      rw [ofDigits, Nat.mul_comm, Nat.mul_add_div hpos, Nat.div_eq_of_lt hlt, Nat.add_zero]
    have hmod : ofDigits base (d :: ds) % base ^ ds.length = ofDigits base ds := by
      rw [ofDigits, Nat.mul_comm, Nat.mul_add_mod, Nat.mod_eq_of_lt hlt]
    rw [List.length_cons, digits, hdiv, hmod, ih hds]

/-- The digits of a number put together from two are those of the one and then the other. -/
theorem digits_append (n m : Nat) {v w : Nat} (hv : v < base ^ n) (hw : w < base ^ m) :
    digits base (n + m) (v * base ^ m + w) = digits base n v ++ digits base m w := by
  have hpos : 0 < base ^ m := Nat.lt_of_le_of_lt (Nat.zero_le _) hw
  induction n generalizing v with
  | zero =>
    have hv : v = 0 := by simpa using hv
    subst hv
    simp [digits]
  | succ n ih =>
    have hdiv : (v * base ^ m + w) / base ^ (n + m) = v / base ^ n := by
      rw [Nat.pow_add, Nat.mul_comm (base ^ n), ← Nat.div_div_eq_div_mul, Nat.mul_comm v,
        Nat.mul_add_div hpos, Nat.div_eq_of_lt hw, Nat.add_zero]
    have hmod : (v * base ^ m + w) % base ^ (n + m) = v % base ^ n * base ^ m + w := by
      have hlt := Nat.mod_lt v (pow_pos_of_lt hv)
      have hsplit : v * base ^ m + w =
          base ^ (n + m) * (v / base ^ n) + (v % base ^ n * base ^ m + w) := by
        conv_lhs => rw [← Nat.div_add_mod v (base ^ n)]
        rw [Nat.add_mul, Nat.pow_add, Nat.mul_right_comm, Nat.add_assoc]
      have hbound : v % base ^ n * base ^ m + w < base ^ (n + m) := by
        calc v % base ^ n * base ^ m + w < v % base ^ n * base ^ m + base ^ m := by omega
          _ = (v % base ^ n + 1) * base ^ m := by rw [Nat.add_mul, Nat.one_mul]
          _ ≤ base ^ n * base ^ m := Nat.mul_le_mul_right _ hlt
          _ = base ^ (n + m) := (Nat.pow_add ..).symm
      rw [hsplit, Nat.mul_add_mod, Nat.mod_eq_of_lt hbound]
    rw [Nat.add_right_comm, digits, digits, hdiv, hmod, ih (Nat.mod_lt _ (pow_pos_of_lt hv)),
      List.cons_append]

/-- Quotients compare first and remainders decide between equal ones. -/
theorem compare_div_mod {m : Nat} (hm : 0 < m) (v w : Nat) :
    (compare (v / m) (w / m)).then (compare (v % m) (w % m)) = compare v w := by
  have hv := Nat.div_add_mod v m
  have hw := Nat.div_add_mod w m
  have hv' := Nat.mod_lt v hm
  have hw' := Nat.mod_lt w hm
  rcases Nat.lt_trichotomy (v / m) (w / m) with h | h | h
  · have hlt : v < w := by
      have : m * (v / m + 1) ≤ m * (w / m) := Nat.mul_le_mul_left m h
      rw [Nat.mul_add] at this
      omega
    rw [Nat.compare_eq_lt.2 h, Nat.compare_eq_lt.2 hlt]
    rfl
  · rw [Nat.compare_eq_eq.2 h]
    show compare (v % m) (w % m) = compare v w
    rw [h] at hv
    rcases Nat.lt_trichotomy (v % m) (w % m) with h' | h' | h'
    · rw [Nat.compare_eq_lt.2 h', Nat.compare_eq_lt.2 (by omega)]
    · rw [Nat.compare_eq_eq.2 h', Nat.compare_eq_eq.2 (by omega)]
    · rw [Nat.compare_eq_gt.2 h', Nat.compare_eq_gt.2 (by omega)]
  · have hlt : w < v := by
      have : m * (w / m + 1) ≤ m * (v / m) := Nat.mul_le_mul_left m h
      rw [Nat.mul_add] at this
      omega
    rw [Nat.compare_eq_gt.2 h, Nat.compare_eq_gt.2 hlt]
    rfl

/-- Numbers of one width compare as their digits, however the digits are written. -/
theorem compareLex_digits {cmp : β → β → Ordering} {f : Nat → β}
    (hf : ∀ a b, a < base → b < base → cmp (f a) (f b) = compare a b) (n : Nat) :
    ∀ {v w : Nat}, v < base ^ n → w < base ^ n →
      ((digits base n v).map f).compareLex cmp ((digits base n w).map f) = compare v w := by
  induction n with
  | zero =>
    intro v w hv hw
    have hv : v = 0 := by simpa using hv
    have hw : w = 0 := by simpa using hw
    subst hv hw
    rfl
  | succ n ih =>
    intro v w hv hw
    have hpos := pow_pos_of_lt hv
    rw [digits, digits, List.map_cons, List.map_cons, List.compareLex_cons_cons,
      ih (Nat.mod_lt _ hpos) (Nat.mod_lt _ hpos), hf _ _ (div_pow_lt hv) (div_pow_lt hw),
      compare_div_mod hpos]

end Digits

/-! ## Escaped and terminated strings -/

section Escape

variable [DecidableEq β] (z m : β)

/-- Escape every `z` as `z m` and end with `z z`. -/
def escape : List β → List β
  | [] => [z, z]
  | b :: bs => if b = z then z :: m :: escape bs else b :: escape bs

theorem escape_cons_self (bs : List β) : escape z m (z :: bs) = z :: m :: escape z m bs :=
  if_pos rfl

theorem escape_cons_of_ne {b : β} (h : b ≠ z) (bs : List β) :
    escape z m (b :: bs) = b :: escape z m bs :=
  if_neg h

theorem escape_ne_nil (bs : List β) : escape z m bs ≠ [] := by
  cases bs with
  | nil => simp [escape]
  | cons b bs =>
    by_cases h : b = z
    · simp [escape, h]
    · simp [escape, h]

variable {z m}

/-- When `z` is the least symbol and `m` is not `z`, escaped strings compare as the strings
do: a terminator `z z` sorts before an escaped `z m` and before every other symbol. -/
theorem escape_embeds {cmp : β → β → Ordering} (heq : ∀ x y, cmp x y = .eq ↔ x = y)
    (hlt : ∀ x, x ≠ z → cmp z x = .lt) (hgt : ∀ x, x ≠ z → cmp x z = .gt) (hm : m ≠ z) :
    Embeds cmp (List.compareLex cmp) (escape z m) (fun _ => True) := by
  have hzz : cmp z z = .eq := (heq z z).2 rfl
  intro x y _ _ s t
  induction x generalizing y with
  | nil =>
    cases y with
    | nil =>
      show (z :: z :: s).compareLex cmp (z :: z :: t) = _
      -- both end: the terminators cancel
      rw [compareLex_cons_of_eq hzz, compareLex_cons_of_eq hzz]
      rfl
    | cons b y =>
      -- the terminator meets a symbol, escaped or not, and is below it
      by_cases hb : b = z
      · subst hb
        rw [escape_cons_self]
        show (b :: b :: s).compareLex cmp (b :: m :: _) = _
        rw [compareLex_cons_of_eq hzz, compareLex_cons_of_ne (by rw [hlt m hm]; decide), hlt m hm]
        rfl
      · rw [escape_cons_of_ne z m hb]
        show (z :: z :: s).compareLex cmp (b :: _) = _
        rw [compareLex_cons_of_ne (by rw [hlt b hb]; decide), hlt b hb]
        rfl
  | cons a x ih =>
    cases y with
    | nil =>
      by_cases ha : a = z
      · subst ha
        rw [escape_cons_self]
        show (a :: m :: _).compareLex cmp (a :: a :: t) = _
        rw [compareLex_cons_of_eq hzz, compareLex_cons_of_ne (by rw [hgt m hm]; decide), hgt m hm]
        rfl
      · rw [escape_cons_of_ne z m ha]
        show (a :: _).compareLex cmp (z :: z :: t) = _
        rw [compareLex_cons_of_ne (by rw [hgt a ha]; decide), hgt a ha]
        rfl
    | cons b y =>
      by_cases hab : a = b
      · -- equal symbols are escaped alike, in one symbol or in two
        subst hab
        rw [List.compareLex_cons_cons, (heq a a).2 rfl]
        show _ = (x.compareLex cmp y).then (s.compareLex cmp t)
        rw [← ih y]
        by_cases ha : a = z
        · subst ha
          rw [escape_cons_self, escape_cons_self, List.cons_append, List.cons_append,
            List.cons_append, List.cons_append, compareLex_cons_of_eq hzz,
            compareLex_cons_of_eq ((heq m m).2 rfl)]
        · rw [escape_cons_of_ne z m ha, escape_cons_of_ne z m ha, List.cons_append,
            List.cons_append, compareLex_cons_of_eq ((heq a a).2 rfl)]
      · -- different symbols decide, since an escape keeps the symbol it starts with
        have hne : cmp a b ≠ .eq := fun h => hab ((heq a b).1 h)
        have hhead : ∀ (c : β) (l : List β), ∃ l', escape z m (c :: l) = c :: l' := by
          intro c l
          by_cases hc : c = z
          · subst hc
            exact ⟨_, escape_cons_self c m l⟩
          · exact ⟨_, escape_cons_of_ne z m hc l⟩
        obtain ⟨p, hp⟩ := hhead a x
        obtain ⟨q, hq⟩ := hhead b y
        rw [hp, hq, List.cons_append, List.cons_append, compareLex_cons_of_ne hne,
          List.compareLex_cons_cons]
        cases hc : cmp a b with
        | lt => rfl
        | eq => exact absurd hc hne
        | gt => rfl

end Escape

end Edb.Lib.Lex
