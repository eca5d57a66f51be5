import Mathlib.Data.List.TakeWhile
import Edb.Catalog.Index

/-!
# Index probes

A probe reads the entries between the encoding of a prefix of the indexed columns and its
successor. The strings between the two are those that start with the encoding
(`mem_bounds_iff`), and an entry starts with it exactly when its leading columns equal the prefix,
since no component's encoding continues another's.
-/

namespace Edb.Catalog

open Edb.Types Edb.Lib

/-! ## Prefix bounds -/

/-- A prefix with a successor: its trailing `0xFF` bytes, and the byte before them. -/
theorem successor_eq_some {p hi : Bytes} (h : successor p = some hi) :
    ∃ (init : Bytes) (last : UInt8) (tail : Bytes), p = init ++ last :: tail ∧ last ≠ 0xFF ∧
      (∀ b ∈ tail, b = 0xFF) ∧ hi = init ++ [last + 1] := by
  unfold successor at h
  split at h
  · cases h
  · next last init hdrop =>
    cases h
    have hsplit := List.takeWhile_append_dropWhile (p := fun b => b == 0xFF) (l := p.reverse)
    rw [hdrop] at hsplit
    have hp := congrArg List.reverse hsplit
    rw [List.reverse_reverse, List.reverse_append, List.reverse_cons, List.append_assoc] at hp
    refine ⟨init.reverse, last, _, hp.symm, ?_, fun b hb => ?_, List.reverse_cons⟩
    · intro hlast
      have hhead := List.head?_dropWhile_not (fun b : UInt8 => b == 0xFF) p.reverse
      rw [hdrop, hlast] at hhead
      cases hhead
    · exact beq_iff_eq.1 (List.mem_takeWhile_imp (p := fun b => b == 0xFF) (List.mem_reverse.1 hb))

/-- A prefix without one is a run of `0xFF` bytes. -/
theorem successor_eq_none {p : Bytes} (h : successor p = none) : ∀ b ∈ p, b = 0xFF := by
  unfold successor at h
  split at h
  · next hdrop =>
    intro b hb
    exact beq_iff_eq.1 (List.dropWhile_eq_nil_iff.1 hdrop b (List.mem_reverse.2 hb))
  · cases h

/-- A string is below the successor of its prefix. -/
theorem lt_successor {p t hi : Bytes} (h : successor p = some hi) : p ++ t < hi := by
  obtain ⟨init, last, tail, rfl, hlast, -, rfl⟩ := successor_eq_some h
  rw [List.append_assoc]
  refine List.append_left_lt ?_
  rw [List.cons_append]
  have hstep : last < last + 1 := by
    rw [UInt8.lt_iff_toNat_lt, UInt8.toNat_add]
    have hne : last.toNat ≠ 255 := fun hn => hlast (UInt8.toNat_inj.1 hn)
    have hlt := last.toNat_lt
    show last.toNat < (last.toNat + 1) % 2 ^ 8
    omega
  exact List.Lex.rel hstep

/-- Strings between two with a common beginning share it. -/
theorem exists_of_between {init x y s : Bytes} (hle : ¬ s < init ++ x) (hlt : s < init ++ y) :
    ∃ s', s = init ++ s' ∧ ¬ s' < x ∧ s' < y := by
  induction init generalizing s with
  | nil => exact ⟨s, rfl, hle, hlt⟩
  | cons a init ih =>
    rw [List.cons_append] at hle hlt
    cases s with
    | nil => exact absurd (List.nil_lt_cons _ _) hle
    | cons b s =>
      rw [List.cons_lt_cons_iff, not_or] at hle
      rw [List.cons_lt_cons_iff] at hlt
      obtain ⟨rfl, hrest⟩ := hlt.resolve_left hle.1
      obtain ⟨s', rfl, h⟩ := ih (fun h => hle.2 ⟨rfl, h⟩) hrest
      exact ⟨s', rfl, h⟩

/-- Nothing but its extensions lies above a run of the largest byte. -/
theorem isPrefix_of_run {tail s : Bytes} (htail : ∀ b ∈ tail, b = 0xFF) (hle : ¬ s < tail) :
    tail <+: s := by
  induction tail generalizing s with
  | nil => exact List.nil_prefix
  | cons a tail ih =>
    obtain ⟨rfl, hrest⟩ := List.forall_mem_cons.1 htail
    cases s with
    | nil => exact absurd (List.nil_lt_cons _ _) hle
    | cons b s =>
      rw [List.cons_lt_cons_iff, not_or] at hle
      have hb : b = 0xFF := by
        have hge := hle.1
        rw [UInt8.lt_iff_toNat_lt] at hge
        have := b.toNat_lt
        have hmax : (0xFF : UInt8).toNat = 255 := rfl
        exact UInt8.toNat_inj.1 (by omega)
      subst hb
      exact List.cons_prefix_cons.2 ⟨rfl, ih hrest fun h => hle.2 ⟨rfl, h⟩⟩

/-- **The bounds of a prefix hold exactly the strings that start with it.** -/
theorem mem_bounds_iff {lo s : Bytes} :
    (lo ≤ s ∧ ∀ hi ∈ successor lo, s < hi) ↔ lo <+: s := by
  rw [← not_lt]
  constructor
  · rintro ⟨hle, hlt⟩
    cases hs : successor lo with
    | none => exact isPrefix_of_run (successor_eq_none hs) hle
    | some hi =>
      have hlt := hlt hi hs
      obtain ⟨init, last, tail, rfl, hlast, htail, rfl⟩ := successor_eq_some hs
      obtain ⟨s, rfl, hle, hlt⟩ := exists_of_between hle hlt
      -- the byte in the place of the stepped one is the old one: it is no less, and not the next
      cases s with
      | nil => exact absurd (List.nil_lt_cons _ _) hle
      | cons b s =>
        rw [List.cons_lt_cons_iff, not_or] at hle
        rw [List.cons_lt_cons_iff] at hlt
        have hb : b = last := by
          have hbelow := hlt.resolve_right fun h => List.not_lt_nil _ h.2
          have hge := hle.1
          rw [UInt8.lt_iff_toNat_lt] at hbelow hge
          rw [UInt8.toNat_add] at hbelow
          have hone : (1 : UInt8).toNat = 1 := rfl
          have := last.toNat_lt
          exact UInt8.toNat_inj.1 (by omega)
        subst hb
        rw [List.prefix_append_right_inj, List.cons_prefix_cons]
        exact ⟨rfl, isPrefix_of_run htail fun h => hle.2 ⟨rfl, h⟩⟩
  · rintro ⟨t, rfl⟩
    exact ⟨List.le_append_left, fun hi hs => lt_successor hs⟩

/-! ## Encoded keys -/

/-- A key that encodes has keyable components only. -/
theorem keyable_of_encodeKey {components : List Value} {key : Bytes}
    (h : encodeKey components = .ok key) : ∀ v ∈ components, v.Keyable := by
  have hfold : ∀ out, components.foldlM encodeInto out = .ok key →
      ∀ v ∈ components, v.Keyable := by
    clear h
    induction components with
    | nil =>
      intro _ _ v hv
      cases hv
    | cons w components ih =>
      intro out h
      rw [List.foldlM_cons] at h
      obtain ⟨out', hw, h⟩ := Result.bind_eq_ok.1 h
      refine List.forall_mem_cons.2 ⟨?_, ih out' h⟩
      intro hjson
      cases w with
      | json _ => cases hw
      | _ => cases hjson
  exact hfold [] h

/-- A probe has the encoding of its prefix as the lower bound. -/
theorem prefixBounds_ok {cols : List Value} {lo : Bytes} {hi : Option Bytes}
    (h : prefixBounds cols = .ok (lo, hi)) :
    (∀ v ∈ cols, v.Keyable) ∧ lo = cols.flatMap component ∧ hi = successor lo := by
  obtain ⟨key, hkey, h⟩ := Result.bind_eq_ok.1 h
  cases h
  have hkeyable := keyable_of_encodeKey hkey
  rw [encodeKey_eq hkeyable] at hkey
  cases hkey
  exact ⟨hkeyable, rfl, rfl⟩

/-- The key of an entry: the encoded columns, and after them the primary key unless the index is
unique. -/
theorem entry_eq_some {cols : List Value} {pkKey : Bytes} {unique : Bool} {e : Entry}
    (h : entry cols pkKey unique = .ok (some e)) :
    (∀ v ∈ cols, v.Keyable) ∧
      e.key = cols.flatMap component ++ if unique then [] else pkKey := by
  unfold entry at h
  split at h
  · cases h
  · obtain ⟨key, hkey, h⟩ := Result.bind_eq_ok.1 h
    have hkeyable := keyable_of_encodeKey hkey
    rw [encodeKey_eq hkeyable] at hkey
    cases hkey
    cases h
    refine ⟨hkeyable, ?_⟩
    cases unique
    · rfl
    · exact (List.append_nil _).symm

/-! ## Exactness -/

/-- Columns that agree with a prefix in the logical order. -/
abbrev ColsEq (cols cols' : List Value) : Prop :=
  List.Forall₂ (fun a b => a.logicalCmp b = .eq) cols cols'

/-- **Index probes are exact.** An entry lies within the bounds of a prefix if and only if its
leading columns equal the prefix, and two entries of a non-unique index over as many columns have
one key only if they have the same columns and the same primary key. -/
theorem probe_exact :
    (∀ (p : List Value) (lo : Bytes) (hi : Option Bytes) (cols : List Value) (pkKey : Bytes)
      (unique : Bool) (e : Entry), prefixBounds p = .ok (lo, hi) →
      entry cols pkKey unique = .ok (some e) → p.length ≤ cols.length →
      ((lo ≤ e.key ∧ ∀ h ∈ hi, e.key < h) ↔ ColsEq (cols.take p.length) p)) ∧
    ∀ (cols cols' : List Value) (pkKey pkKey' : Bytes) (e e' : Entry),
      cols.length = cols'.length → entry cols pkKey false = .ok (some e) →
      entry cols' pkKey' false = .ok (some e') → e.key = e'.key →
      ColsEq cols cols' ∧ pkKey = pkKey' := by
  constructor
  · intro p lo hi cols pkKey unique e hbounds hentry hlen
    obtain ⟨hp, rfl, rfl⟩ := prefixBounds_ok hbounds
    obtain ⟨hcols, hkey⟩ := entry_eq_some hentry
    rw [mem_bounds_iff, hkey]
    exact component_embeds.isPrefix_flatMap_iff (fun _ _ => cmpBytes_eq) hp hcols hlen
  · intro cols cols' pkKey pkKey' e e' hlen hentry hentry' hsame
    obtain ⟨hcols, hkey⟩ := entry_eq_some hentry
    obtain ⟨hcols', hkey'⟩ := entry_eq_some hentry'
    rw [hkey, hkey'] at hsame
    exact (component_embeds.flatMap_append_inj (fun _ _ => cmpBytes_eq) hcols hcols' hlen).1 hsame

/-- A text that continues the probed one, and ends in the bytes of the next component, is not
within its bounds. -/
theorem probe_exact_continued : ∃ lo hi e, prefixBounds [.text "a"] = .ok (lo, hi) ∧
    entry [.text "a\x00", .null] [0x01] false = .ok (some e) ∧
    ¬ (lo ≤ e.key ∧ ∀ h ∈ hi, e.key < h) := by
  refine ⟨_, _, _, rfl, rfl, ?_⟩
  rw [probe_exact.1 [.text "a"] _ _ [.text "a\x00", .null] [0x01] false _ rfl rfl (by decide)]
  decide

end Edb.Catalog
