import Mathlib.Data.Stream.Defs
import Mathlib.Tactic.Linarith
import Edb.Types.Key

/-!
# Time-ordered uuids

The generator of version 7 uuids: 48 bits of milliseconds, the version, a 12-bit counter, the
variant and 62 random bits. All it remembers is the pair of milliseconds and counter it issued
last. Read as one number (`stamp`) that pair goes up with every uuid, whatever the clock reads and
the random source gives, and it is what the first eight bytes of a uuid spell
(`layout_toList`). So a uuid is above all before it (`next_uuid_monotonic`).
-/

namespace Edb.Types

open Edb.Lib

/-- Clamp epoch-microseconds to a non-negative 48-bit millisecond value. -/
def unixMs (micros : Int64) : UInt64 :=
  UInt64.ofNat (micros.toInt / 1000).toNat &&& 0xFFFFFFFFFFFF

/-- The generator, with what its clock and its random source are going to give. -/
structure UuidV7Gen where
  clock : Stream' Int64
  rng : Stream' UInt64
  /-- The last issued milliseconds and counter. -/
  last : UInt64 × UInt16

namespace UuidV7Gen

def new (clock : Stream' Int64) (rng : Stream' UInt64) : UuidV7Gen where
  clock := clock
  rng := rng
  last := (0, 0)

def nowMicros : StateM UuidV7Gen Int64 :=
  fun g => (g.clock.head, { g with clock := g.clock.tail })

def nextU64 : StateM UuidV7Gen UInt64 :=
  fun g => (g.rng.head, { g with rng := g.rng.tail })

/-- The milliseconds and counter to issue at this clock reading. -/
def nextPair (nowMs : UInt64) : StateM UuidV7Gen (UInt64 × UInt16) := do
  let last := (← get).last
  if nowMs > last.1 then
    -- a fresh millisecond: the counter restarts in the lower half of its space
    let word ← nextU64
    pure (nowMs, (word &&& 0x7FF).toUInt16)
  else if last.2 < 0xFFF then
    pure (last.1, last.2 + 1)
  else
    -- the counter is exhausted: the timestamp is nudged forward
    let word ← nextU64
    pure (last.1 + 1, (word &&& 0x7FF).toUInt16)

/-- The bytes of a uuid. -/
def layout (ms : UInt64) (counter : UInt16) (randB : UInt64) : Vector UInt8 16 :=
  let tail := (randB &&& 0x3FFFFFFFFFFFFFFF) ||| 0x8000000000000000
  let stamped : Bytes :=
    [(0x70 : UInt8) ||| ((counter >>> 8).toUInt8 &&& 0x0F), (counter &&& 0xFF).toUInt8]
  ⟨((toBeBytes ms).drop 2 ++ stamped ++ toBeBytes tail).toArray, by simp [toBeBytes, stamped]⟩

/-- Generate the next uuid. -/
def nextUuid : StateM UuidV7Gen (Vector UInt8 16) := do
  let nowMs := unixMs (← nowMicros)
  let (ms, counter) ← nextPair nowMs
  modify fun g => { g with last := (ms, counter) }
  let randB ← nextU64
  pure (layout ms counter randB)

/-- The generator after so many uuids. -/
def after (g : UuidV7Gen) : Nat → UuidV7Gen
  | 0 => g
  | n + 1 => (nextUuid (g.after n)).2

/-- The uuid generated after `n` others. -/
def issued (g : UuidV7Gen) (n : Nat) : Vector UInt8 16 := (nextUuid (g.after n)).1

/-! ## The stamp goes up -/

/-- The pair as one number, for counters of 12 bits. -/
def stamp (pair : UInt64 × UInt16) : Nat := pair.1.toNat * 2 ^ 12 + pair.2.toNat

theorem seed_lt (word : UInt64) : (word &&& 0x7FF).toUInt16.toNat < 2 ^ 12 := by
  have hmask : (word &&& 0x7FF).toNat ≤ 0x7FF := by
    rw [UInt64.toNat_and]
    exact Nat.and_le_right
  rw [UInt64.toNat_toUInt16]
  omega

/-- The pair, by the branch taken. -/
theorem nextPair_fst (nowMs : UInt64) (g : UuidV7Gen) : (nextPair nowMs g).1 =
    if nowMs > g.last.1 then (nowMs, (g.rng.head &&& 0x7FF).toUInt16)
    else if g.last.2 < 0xFFF then (g.last.1, g.last.2 + 1)
    else (g.last.1 + 1, (g.rng.head &&& 0x7FF).toUInt16) := by
  change ((ite (nowMs > g.last.1) _ _ : StateM UuidV7Gen _) g).1 = _
  by_cases hfresh : nowMs > g.last.1
  · rw [if_pos hfresh, if_pos hfresh]
    rfl
  · rw [if_neg hfresh, if_neg hfresh]
    by_cases hcount : g.last.2 < 0xFFF
    · rw [if_pos hcount, if_pos hcount]
      rfl
    · rw [if_neg hcount, if_neg hcount]
      rfl

/-- The next pair is above the last, and its counter keeps to 12 bits. -/
theorem nextPair_spec (nowMs : UInt64) {g : UuidV7Gen} (hms : g.last.1.toNat < 2 ^ 48)
    (hcounter : g.last.2.toNat < 2 ^ 12) :
    (nextPair nowMs g).1.2.toNat < 2 ^ 12 ∧ stamp g.last < stamp (nextPair nowMs g).1 := by
  have hseed := seed_lt g.rng.head
  rw [nextPair_fst]
  unfold stamp
  by_cases hfresh : nowMs > g.last.1
  · have hlt : g.last.1.toNat < nowMs.toNat := UInt64.lt_iff_toNat_lt.1 hfresh
    rw [if_pos hfresh]
    refine ⟨hseed, ?_⟩
    change _ < nowMs.toNat * 2 ^ 12 + _
    omega
  · rw [if_neg hfresh]
    by_cases hcount : g.last.2 < 0xFFF
    · have hlt : g.last.2.toNat < 0xFFF := UInt16.lt_iff_toNat_lt.1 hcount
      have hsucc : (g.last.2 + 1).toNat = g.last.2.toNat + 1 := by
        rw [UInt16.toNat_add]
        exact Nat.mod_eq_of_lt (by change g.last.2.toNat + 1 < 2 ^ 16; omega)
      rw [if_pos hcount]
      change (g.last.2 + 1).toNat < 2 ^ 12 ∧ _ < g.last.1.toNat * 2 ^ 12 + (g.last.2 + 1).toNat
      rw [hsucc]
      exact ⟨by omega, by omega⟩
    · have hsucc : (g.last.1 + 1).toNat = g.last.1.toNat + 1 := by
        rw [UInt64.toNat_add]
        exact Nat.mod_eq_of_lt (by change g.last.1.toNat + 1 < 2 ^ 64; omega)
      rw [if_neg hcount]
      refine ⟨hseed, ?_⟩
      change _ < (g.last.1 + 1).toNat * 2 ^ 12 + _
      rw [hsucc]
      omega

/-- A uuid is laid out from the pair that the generator then remembers. -/
theorem nextUuid_spec (g : UuidV7Gen) : ∃ nowMs g₁ randB, g₁.last = g.last ∧
    (nextUuid g).2.last = (nextPair nowMs g₁).1 ∧
    (nextUuid g).1 = layout (nextPair nowMs g₁).1.1 (nextPair nowMs g₁).1.2 randB := by
  obtain ⟨clock, rng, last⟩ := g
  exact ⟨unixMs clock.head, ⟨clock.tail, rng, last⟩,
    (nextPair (unixMs clock.head) ⟨clock.tail, rng, last⟩).2.rng.head, rfl, rfl, rfl⟩

/-- The generator's last pair has been issued within 48 bits of milliseconds. -/
def InRange (g : UuidV7Gen) : Prop := g.last.1.toNat < 2 ^ 48

instance (g : UuidV7Gen) : Decidable g.InRange := inferInstanceAs (Decidable (_ < _))

/-- One uuid moves the stamp up. -/
theorem nextUuid_stamp {g : UuidV7Gen} (hms : g.InRange) (hcounter : g.last.2.toNat < 2 ^ 12) :
    (nextUuid g).2.last.2.toNat < 2 ^ 12 ∧ stamp g.last < stamp (nextUuid g).2.last := by
  obtain ⟨nowMs, g₁, randB, hlast, hpair, -⟩ := nextUuid_spec g
  rw [InRange, ← hlast] at hms
  rw [← hlast] at hcounter
  rw [hpair, ← hlast]
  exact nextPair_spec nowMs hms hcounter

/-- Along a run the counter keeps to its 12 bits. -/
theorem after_counter {clock : Stream' Int64} {rng : Stream' UInt64} :
    ∀ {n : Nat}, (∀ m < n, ((new clock rng).after m).InRange) →
      ((new clock rng).after n).last.2.toNat < 2 ^ 12
  | 0, _ => Nat.two_pow_pos 12
  | n + 1, h => (nextUuid_stamp (h n (Nat.lt_succ_self n))
      (after_counter fun m hm => h m (Nat.lt_succ_of_lt hm))).1

/-- Along a run the stamp goes up. -/
theorem after_stamp {clock : Stream' Int64} {rng : Stream' UInt64} {m n : Nat} (hmn : m < n)
    (h : ∀ i < n, ((new clock rng).after i).InRange) :
    stamp ((new clock rng).after m).last < stamp ((new clock rng).after n).last := by
  induction n with
  | zero => exact absurd hmn (Nat.not_lt_zero m)
  | succ n ih =>
    have hbelow : ∀ i < n, ((new clock rng).after i).InRange := fun i hi =>
      h i (Nat.lt_succ_of_lt hi)
    have hstep := (nextUuid_stamp (h n (Nat.lt_succ_self n)) (after_counter hbelow)).2
    rcases Nat.lt_succ_iff_lt_or_eq.1 hmn with hlt | rfl
    · exact lt_trans (ih hlt hbelow) hstep
    · exact hstep

/-! ## The bytes -/

/-- The first eight bytes of a uuid as a word: milliseconds, version, counter. -/
def head (ms : UInt64) (counter : UInt16) : UInt64 :=
  UInt64.ofNat (ms.toNat * 2 ^ 16 + (0x7000 + counter.toNat))

theorem head_toNat {ms : UInt64} {counter : UInt16} (hms : ms.toNat < 2 ^ 48)
    (hcounter : counter.toNat < 2 ^ 12) :
    (head ms counter).toNat = ms.toNat * 2 ^ 16 + (0x7000 + counter.toNat) :=
  UInt64.toNat_ofNat_of_lt' (by change _ < 2 ^ 64; omega)

/-- The version in the high half of a byte. -/
theorem versioned_toNat (low : UInt8) :
    ((0x70 : UInt8) ||| (low &&& 0x0F)).toNat = 0x70 + low.toNat % 2 ^ 4 := by
  rw [UInt8.toNat_or, UInt8.toNat_and]
  change 0x70 ||| (low.toNat &&& 2 ^ 4 - 1) = _
  rw [Nat.and_two_pow_sub_one_eq_mod]
  exact (Nat.two_pow_add_eq_or_of_lt (i := 4) (b := low.toNat % 2 ^ 4) (by omega) 7).symm

/-- The two bytes of version and counter. -/
theorem stamped_eq {counter : UInt16} (hcounter : counter.toNat < 2 ^ 12) :
    [(0x70 : UInt8) ||| ((counter >>> 8).toUInt8 &&& 0x0F), (counter &&& 0xFF).toUInt8] =
      (Lex.digits 256 2 (0x7000 + counter.toNat)).map UInt8.ofNat := by
  have hlow : (counter &&& 0xFF).toUInt8.toNat = counter.toNat % 256 := by
    rw [UInt16.toNat_toUInt8, UInt16.toNat_and]
    change (counter.toNat &&& 2 ^ 8 - 1) % 2 ^ 8 = _
    rw [Nat.and_two_pow_sub_one_eq_mod]
    omega
  have hversion : ((0x70 : UInt8) ||| ((counter >>> 8).toUInt8 &&& 0x0F)).toNat =
      0x70 + counter.toNat / 256 := by
    rw [versioned_toNat, UInt16.toNat_toUInt8, UInt16.toNat_shiftRight]
    change 0x70 + counter.toNat >>> 8 % 2 ^ 8 % 2 ^ 4 = _
    rw [Nat.shiftRight_eq_div_pow]
    omega
  have hdigits : Lex.digits 256 2 (0x7000 + counter.toNat) =
      [0x70 + counter.toNat / 256, counter.toNat % 256] := by
    simp only [Lex.digits]
    rw [show (0x7000 + counter.toNat) / 256 ^ 1 = 0x70 + counter.toNat / 256 by omega,
      show (0x7000 + counter.toNat) % 256 ^ 1 / 256 ^ 0 = counter.toNat % 256 by omega]
  rw [hdigits, List.map_cons, List.map_cons, List.map_nil, ← hversion, ← hlow, UInt8.ofNat_toNat,
    UInt8.ofNat_toNat]

/-- What the first eight bytes spell. -/
theorem layout_toList {ms : UInt64} {counter : UInt16} (hms : ms.toNat < 2 ^ 48)
    (hcounter : counter.toNat < 2 ^ 12) (randB : UInt64) :
    (layout ms counter randB).toList = toBeBytes (head ms counter) ++
      toBeBytes ((randB &&& 0x3FFFFFFFFFFFFFFF) ||| 0x8000000000000000) := by
  have htop : toBeBytes ms = [0, 0] ++ (Lex.digits 256 6 ms.toNat).map UInt8.ofNat := by
    have happend : Lex.digits 256 (2 + 6) (0 * 256 ^ 6 + ms.toNat) =
        Lex.digits 256 2 0 ++ Lex.digits 256 6 ms.toNat := Lex.digits_append 2 6 (by decide) hms
    rw [Nat.zero_mul, Nat.zero_add] at happend
    rw [toBeBytes, happend, List.map_append]
    rfl
  have hhead : toBeBytes (head ms counter) = (Lex.digits 256 6 ms.toNat).map UInt8.ofNat ++
      (Lex.digits 256 2 (0x7000 + counter.toNat)).map UInt8.ofNat := by
    have happend : Lex.digits 256 (6 + 2) (ms.toNat * 256 ^ 2 + (0x7000 + counter.toNat)) =
        Lex.digits 256 6 ms.toNat ++ Lex.digits 256 2 (0x7000 + counter.toNat) :=
      Lex.digits_append 6 2 hms (by omega)
    rw [toBeBytes, head_toNat hms hcounter, ← List.map_append, ← happend]
    rfl
  have hlayout : (layout ms counter randB).toList = (toBeBytes ms).drop 2 ++
      [(0x70 : UInt8) ||| ((counter >>> 8).toUInt8 &&& 0x0F), (counter &&& 0xFF).toUInt8] ++
      toBeBytes ((randB &&& 0x3FFFFFFFFFFFFFFF) ||| 0x8000000000000000) := rfl
  rw [hlayout, htop, hhead, stamped_eq hcounter]
  rfl

/-- A lower stamp is a lower uuid. -/
theorem layout_lt {p q : UInt64 × UInt16} (hp : p.1.toNat < 2 ^ 48 ∧ p.2.toNat < 2 ^ 12)
    (hq : q.1.toNat < 2 ^ 48 ∧ q.2.toNat < 2 ^ 12) (h : stamp p < stamp q) (r r' : UInt64) :
    (layout p.1 p.2 r).toList < (layout q.1 q.2 r').toList := by
  apply lt_of_cmpBytes
  have hword : (head p.1 p.2).toNat < (head q.1 q.2).toNat := by
    have hms : p.1.toNat ≤ q.1.toNat := by
      unfold stamp at h
      omega
    rw [head_toNat hp.1 hp.2, head_toNat hq.1 hq.2]
    unfold stamp at h
    linarith only [h, hms]
  rw [layout_toList hp.1 hp.2, layout_toList hq.1 hq.2]
  refine (toBeBytes_compare ..).trans ?_
  rw [Nat.compare_eq_lt.2 hword, Ordering.lt_then]

/-- The version and the variant are where they belong. -/
theorem layout_tags (ms : UInt64) (counter : UInt16) (randB : UInt64) :
    (layout ms counter randB)[6] >>> 4 = 7 ∧ (layout ms counter randB)[8] >>> 6 = 2 := by
  have hbyte : ∀ word : UInt64, 2 ^ 63 ≤ word.toNat → word.toNat < 2 ^ 63 + 2 ^ 62 →
      UInt8.ofNat (word.toNat / 256 ^ 7) >>> 6 = 2 := by
    intro word hge hlt
    apply UInt8.toNat_inj.1
    rw [UInt8.toNat_shiftRight, UInt8.toNat_ofNat_of_lt' (by change _ < 2 ^ 8; omega)]
    change (word.toNat / 256 ^ 7) >>> 6 = 2
    rw [Nat.shiftRight_eq_div_pow]
    omega
  have htail : ((randB &&& 0x3FFFFFFFFFFFFFFF) ||| 0x8000000000000000).toNat =
      2 ^ 63 + randB.toNat % 2 ^ 62 := by
    rw [UInt64.toNat_or, UInt64.toNat_and]
    change (randB.toNat &&& 2 ^ 62 - 1) ||| 2 ^ 63 = _
    rw [Nat.and_two_pow_sub_one_eq_mod, Nat.or_comm]
    exact (Nat.two_pow_add_eq_or_of_lt (i := 63) (b := randB.toNat % 2 ^ 62) (by omega) 1).symm
  refine ⟨?_, hbyte ((randB &&& 0x3FFFFFFFFFFFFFFF) ||| 0x8000000000000000) ?_ ?_⟩
  · apply UInt8.toNat_inj.1
    change ((0x70 : UInt8) ||| ((counter >>> 8).toUInt8 &&& 0x0F)).toNat >>> 4 = 7
    rw [versioned_toNat, Nat.shiftRight_eq_div_pow]
    omega
  · omega
  · omega

/-- **Strictly monotonic.** As long as the milliseconds fit 48 bits, each uuid is above all before
it, of version 7 and variant `0b10`. -/
theorem next_uuid_monotonic (clock : Stream' Int64) (rng : Stream' UInt64) (n : Nat)
    (h : ∀ m ≤ n + 1, ((new clock rng).after m).InRange) :
    (∀ m < n, ((new clock rng).issued m).toList < ((new clock rng).issued n).toList) ∧
      ((new clock rng).issued n)[6] >>> 4 = 7 ∧ ((new clock rng).issued n)[8] >>> 6 = 2 := by
  have hissued : ∀ m ≤ n, ∃ r, (new clock rng).issued m =
      layout ((new clock rng).after (m + 1)).last.1 ((new clock rng).after (m + 1)).last.2 r := by
    intro m _
    obtain ⟨nowMs, g₁, randB, -, hpair, hlayout⟩ := nextUuid_spec ((new clock rng).after m)
    refine ⟨randB, ?_⟩
    rw [issued, hlayout, ← hpair]
    rfl
  have hpair : ∀ m ≤ n, ((new clock rng).after (m + 1)).last.1.toNat < 2 ^ 48 ∧
      ((new clock rng).after (m + 1)).last.2.toNat < 2 ^ 12 := fun m hm =>
    ⟨h (m + 1) (Nat.succ_le_succ hm), after_counter fun i hi => h i (by omega)⟩
  obtain ⟨r, hr⟩ := hissued n (Nat.le_refl n)
  refine ⟨fun m hm => ?_, ?_⟩
  · obtain ⟨r', hr'⟩ := hissued m (Nat.le_of_lt hm)
    rw [hr, hr']
    exact layout_lt (hpair m (Nat.le_of_lt hm)) (hpair n (Nat.le_refl n))
      (after_stamp (Nat.succ_lt_succ hm) fun i hi => h i (Nat.le_of_lt hi)) r' r
  · rw [hr]
    exact layout_tags ..

/-- The clock stands still and the random source gives its highest word. -/
theorem next_uuid_monotonic_stalled :
    ((new (Stream'.const 0) (Stream'.const 0xFFFFFFFFFFFFFFFF)).issued 0).toList <
      ((new (Stream'.const 0) (Stream'.const 0xFFFFFFFFFFFFFFFF)).issued 1).toList :=
  (next_uuid_monotonic (Stream'.const 0) (Stream'.const 0xFFFFFFFFFFFFFFFF) 1 (by decide)).1 0
    (by decide)

end UuidV7Gen

end Edb.Types
