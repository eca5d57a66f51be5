import Edb.Proto.Grammar

/-!
# The wire reader against the grammar

The decoder of requests and the gate of json columns are two readers of one format. The bytes
that `decodeDoc` turns into a document are derivable by the grammar within the depth limit, and
every length and count in the document was read from a word of at most four bytes.

* **The codec within its limits** (`wire_codec`): a document comes back from its encoding exactly
  when it is within the limits, has distinct keys and saturates no head.
* **The gate** (`json_gate`): `validateJson` accepts what the grammar derives, so it accepts every
  message that `decodeDoc` does, and what such a document is written as.
-/

namespace Edb.Proto

open Edb.Types Edb.Lib

/-- `bytes` are what was read for a document, a derivable value, and what is left. -/
structure Taken (max depth : Nat) (bytes : Bytes) (p : Doc × Reader) : Prop where
  wire : ∃ wire, bytes = wire ++ p.2.rest ∧ Derives max depth wire
  sized : p.1.Sized

/-- Every value the computation returns was taken off `bytes`. -/
abbrev Takes (max depth : Nat) (bytes : Bytes) : ProtoResult (Doc × Reader) → Prop :=
  Result.Holds (fun _ => True) (Taken max depth bytes)

namespace Reader

variable {max depth : Nat} {r : Reader}

/-- What `take` returns is a prefix of the rest, of the length asked for. -/
theorem take_takes (n : Nat) (r : Reader) :
    Result.Holds (fun _ => True) (fun p => p.1.length = n ∧ r.rest = p.1 ++ p.2.rest)
      (r.take n) := by
  rw [take]
  refine Result.Holds.ite (fun _ => trivial) (fun hlen => ?_)
  exact ⟨by rw [List.length_take]; omega, (List.take_append_drop n r.rest).symm⟩

/-- What `takeBe` returns is a number that its bytes write in big-endian order. -/
theorem takeBe_takes (n : Nat) (r : Reader) :
    Result.Holds (fun _ => True) (fun p => p.1 < 256 ^ n ∧ r.rest = beBytes n p.1 ++ p.2.rest)
      (r.takeBe n) := by
  apply Result.Holds.bind (take_takes n r)
  rintro ⟨word, r'⟩ ⟨rfl, hrest⟩
  obtain ⟨hlt, hword⟩ := beBytes_ofDigits word
  exact ⟨hlt, by rw [hword]; exact hrest⟩

/-- A string body is the UTF-8 of the string it returns. -/
theorem strBody_takes (n : Nat) (r : Reader) :
    Result.Holds (fun _ => True)
      (fun p => (asBytes p.1).length = n ∧ r.rest = asBytes p.1 ++ p.2.rest) (r.strBody n) := by
  apply Result.Holds.bind (take_takes n r)
  rintro ⟨bytes, r'⟩ ⟨hlen, hrest⟩
  dsimp only
  split
  · trivial
  · next s hs =>
    have hbytes := asBytes_fromUtf8 hs
    exact ⟨by rw [hbytes]; exact hlen, by rw [hbytes]; exact hrest⟩

/-- A word read behind the head byte `tag`, whatever is made of it. -/
theorem word_takes {α : Type} {width : Nat} (tag : UInt8) {k : Nat × Reader → ProtoResult α}
    {P : α → Prop}
    (h : ∀ n r', n < 256 ^ width → tag :: r.rest = (tag :: beBytes width n) ++ r'.rest →
      Result.Holds (fun _ => True) P (k (n, r'))) :
    Result.Holds (fun _ => True) P (r.takeBe width >>= k) := by
  apply Result.Holds.bind (takeBe_takes width r)
  rintro ⟨n, r'⟩ ⟨hn, hrest⟩
  exact h n r' hn (by rw [hrest]; rfl)

/-- A number of fixed width behind its head byte. -/
theorem number_takes {width : Nat} {tag : UInt8} {k : Nat × Reader → ProtoResult (Doc × Reader)}
    (hdepth : depth ≤ max) (hhead : ScalarHead width [tag])
    (hk : ∀ n r', Result.Holds (fun _ => True) (fun p => p.1.Sized ∧ p.2 = r') (k (n, r'))) :
    Takes max depth (tag :: r.rest) (r.takeBe width >>= k) := by
  apply word_takes tag
  intro n r' _ hrest
  apply (hk n r').mono
  rintro ⟨d, _⟩ ⟨hsized, rfl⟩
  refine ⟨⟨tag :: beBytes width n, hrest, ?_⟩, hsized⟩
  rw [← length_beBytes width n] at hhead
  exact .scalar hdepth hhead

theorem unsigned_takes {width : Nat} {tag : UInt8} (hdepth : depth ≤ max)
    (hhead : ScalarHead width [tag]) : Takes max depth (tag :: r.rest) (r.unsigned width) := by
  apply number_takes hdepth hhead
  intro n r'
  exact Result.Holds.ite (fun _ => ⟨trivial, rfl⟩) (fun _ => trivial)

theorem signed_takes {width : Nat} {tag : UInt8} (hdepth : depth ≤ max)
    (hhead : ScalarHead width [tag]) : Takes max depth (tag :: r.rest) (r.signed width) :=
  number_takes hdepth hhead (fun _ _ => ⟨trivial, rfl⟩)

theorem float32_takes (hdepth : depth ≤ max) : Takes max depth (0xCA :: r.rest) r.float32 :=
  number_takes hdepth .float32 (fun _ _ => ⟨trivial, rfl⟩)

theorem float64_takes (hdepth : depth ≤ max) : Takes max depth (0xCB :: r.rest) r.float64 :=
  number_takes hdepth .float64 (fun _ _ => ⟨trivial, rfl⟩)

theorem lone_takes {head : UInt8} {d : Doc} (hdepth : depth ≤ max) (hhead : ScalarHead 0 [head])
    (hd : d.Sized) : Takes max depth (head :: r.rest) (.ok (d, r)) :=
  ⟨⟨[head], rfl, Derives.lone hdepth hhead⟩, hd⟩

/-- A body behind a length of `width` bytes takes what it takes behind the whole header. -/
theorem counted_takes {α : Type} {width : Nat} {tag : UInt8}
    {body : Nat → Reader → ProtoResult (α × Reader)} {P : Bytes → α × Reader → Prop}
    (h : ∀ n r', n < 256 ^ width →
      Result.Holds (fun _ => True) (P ((tag :: beBytes width n) ++ r'.rest)) (body n r')) :
    Result.Holds (fun _ => True) (P (tag :: r.rest)) (r.counted width body) := by
  apply word_takes tag
  intro n r' hn hrest
  rw [hrest]
  exact h n r' hn

theorem str_takes {n : Nat} {head : Bytes} (hdepth : depth ≤ max) (hhead : PayloadHead n head)
    (hn : n < 2 ^ 32) : Takes max depth (head ++ r.rest) (r.str n) := by
  apply Result.Holds.bind (strBody_takes n r)
  rintro ⟨s, r'⟩ ⟨hlen, hrest⟩
  subst hlen
  refine ⟨⟨head ++ asBytes s, ?_, .payload hdepth hhead⟩, hn⟩
  rw [hrest, List.append_assoc]

theorem bin_takes {n : Nat} {head : Bytes} (hdepth : depth ≤ max) (hhead : PayloadHead n head)
    (hn : n < 2 ^ 32) : Takes max depth (head ++ r.rest) (r.bin n) := by
  apply Result.Holds.bind (take_takes n r)
  rintro ⟨bytes, r'⟩ ⟨hlen, hrest⟩
  subst hlen
  refine ⟨⟨head ++ bytes, ?_, .payload hdepth hhead⟩, hn⟩
  rw [hrest, List.append_assoc]

section Nested

variable {value : Reader → ProtoResult (Doc × Reader)}

/-- The items of an array are as many values one level deeper. -/
theorem arrayItems_takes (h : ∀ r, Takes max (depth + 1) r.rest (value r)) (n : Nat) (r : Reader) :
    Result.Holds (fun _ => True)
      (fun p => p.1.length = n ∧ Doc.SizedItems p.1 ∧ ∃ wires : List Bytes, wires.length = n
        ∧ (∀ wire ∈ wires, Derives max (depth + 1) wire) ∧ r.rest = wires.flatten ++ p.2.rest)
      (arrayItems value n r) := by
  induction n generalizing r with
  | zero => exact ⟨rfl, trivial, [], rfl, (fun _ hw => by cases hw), rfl⟩
  | succ n ih =>
    apply Result.Holds.bind (h r)
    rintro ⟨d, r₁⟩ ⟨⟨wire, hrest, hwire⟩, hsized⟩
    apply Result.Holds.bind (ih r₁)
    rintro ⟨ds, r₂⟩ ⟨hlen, hsizeds, wires, hcount, hwires, hrest₁⟩
    refine ⟨by rw [List.length_cons, hlen], ⟨hsized, hsizeds⟩, wire :: wires,
      by rw [List.length_cons, hcount], ?_, ?_⟩
    · intro w hw
      rcases List.mem_cons.1 hw with rfl | hw
      · exact hwire
      · exact hwires w hw
    · rw [hrest, hrest₁, List.flatten_cons, List.append_assoc]

/-- An array takes its header and then its items. -/
theorem arrayBody_takes (h : ∀ r, Takes max (depth + 1) r.rest (value r)) {n : Nat} {head : Bytes}
    (hdepth : depth ≤ max) (hhead : ArrayHead n head) (hn : n < 2 ^ 32) :
    Takes max depth (head ++ r.rest) (r.arrayBody value n) := by
  apply Result.Holds.bind (P := fun _ => True)
  · rw [checkCount]
    exact Result.Holds.ite (fun _ => trivial)
      (fun _ => Result.Holds.ite (fun _ => trivial) (fun _ => trivial))
  intro _ _
  apply Result.Holds.bind (arrayItems_takes h n r)
  rintro ⟨items, r'⟩ ⟨hlen, hsized, wires, rfl, hwires, hrest⟩
  have hcount : items.length < 2 ^ 32 := hlen ▸ hn
  refine ⟨⟨head ++ wires.flatten, ?_, .array hdepth hhead hwires⟩, hcount, hsized⟩
  rw [hrest, List.append_assoc]

/-- A key, with the string value on the wire that it was read off. -/
def KeyTaken (max : Nat) (bytes : Bytes) (p : Option String × Reader) : Prop :=
  ∀ key, p.1 = some key → (asBytes key).length < 2 ^ 32
    ∧ ∃ wire, (∀ depth ≤ max, Derives max depth wire) ∧ bytes = wire ++ p.2.rest

/-- A map key takes its header and then its bytes. -/
theorem keyBody_takes {n : Nat} {head : Bytes} (hhead : PayloadHead n head) (hn : n < 2 ^ 32) :
    Result.Holds (fun _ => True) (KeyTaken max (head ++ r.rest)) (r.keyBody n) := by
  apply Result.Holds.bind (strBody_takes n r)
  rintro ⟨s, r'⟩ ⟨hlen, hrest⟩ key hkey
  cases hkey
  subst hlen
  refine ⟨hn, head ++ asBytes s, fun depth hdepth => .payload hdepth hhead, ?_⟩
  rw [hrest, List.append_assoc]

/-- A map key that is a string takes one value of the grammar. -/
theorem valueIsStr_takes (max : Nat) (r : Reader) :
    Result.Holds (fun _ => True) (KeyTaken max r.rest) r.valueIsStr := by
  obtain ⟨rest, k, m⟩ := r
  cases rest with
  | nil => trivial
  | cons head rest =>
    show Result.Holds _ _ (keyHead head ⟨rest, k, m⟩)
    obtain ⟨h, hh, rfl⟩ := exists_ofNat head
    rw [keyHead, toNat_ofNat hh]
    refine Result.Holds.ite (fun hhead => ?_) (fun _ => ?_)
    · obtain ⟨n, rfl⟩ : ∃ n, h = 0xA0 + n := ⟨h - 0xA0, by omega⟩
      have hn : (0xA0 + n) % 0x20 = n := by omega
      rw [hn]
      exact keyBody_takes (r := ⟨rest, k, m⟩) (.fixstr (by omega)) (by omega)
    refine Result.Holds.ite (fun hhead => ?_) (fun _ => ?_)
    · subst hhead
      exact counted_takes (r := ⟨rest, k, m⟩) (P := KeyTaken max)
        (fun n r' hn => keyBody_takes (.str8 hn) (by omega))
    refine Result.Holds.ite (fun hhead => ?_) (fun _ => ?_)
    · subst hhead
      exact counted_takes (r := ⟨rest, k, m⟩) (P := KeyTaken max)
        (fun n r' hn => keyBody_takes (.str16 hn) (by omega))
    refine Result.Holds.ite (fun hhead => ?_) (fun _ => ?_)
    · subst hhead
      exact counted_takes (r := ⟨rest, k, m⟩) (P := KeyTaken max)
        (fun n r' hn => keyBody_takes (.str32 hn) (by omega))
    · intro key hkey
      cases hkey

/-- The entries read so far, with what is left of the map's `n` entries behind them. -/
theorem mapEntries_takes (h : ∀ r, Takes max (depth + 1) r.rest (value r)) (n : Nat)
    (seen : List (String × Doc)) (r : Reader) (hseen : Doc.SizedEntries seen) :
    Result.Holds (fun _ => True)
      (fun p => p.1.length = seen.length + n ∧ Doc.SizedEntries p.1
        ∧ ∃ wires : List (Bytes × Bytes), wires.length = n
          ∧ (∀ w ∈ wires, Derives max (depth + 1) w.1)
          ∧ (∀ w ∈ wires, Derives max (depth + 1) w.2)
          ∧ r.rest = (wires.flatMap fun w => w.1 ++ w.2) ++ p.2.rest)
      (mapEntries value n seen r) := by
  induction n generalizing seen r with
  | zero =>
    exact ⟨rfl, hseen, [], rfl, (fun _ hw => by cases hw), (fun _ hw => by cases hw), rfl⟩
  | succ n ih =>
    apply Result.Holds.bind (P := fun r' => r'.rest = r.rest)
    · rw [node]
      exact Result.Holds.ite (fun _ => trivial) (fun _ => rfl)
    intro r₁ hrest₁
    apply Result.Holds.bind (valueIsStr_takes max r₁)
    rintro ⟨key, r₂⟩ hkey
    cases key with
    | none => trivial
    | some key =>
      obtain ⟨hlen, wire, hwire, hrest₂⟩ := hkey key rfl
      refine Result.Holds.ite (fun _ => trivial) (fun _ => ?_)
      apply Result.Holds.bind (h r₂)
      rintro ⟨d, r₃⟩ ⟨⟨wire', hrest₃, hwire'⟩, hsized⟩
      have hseen' : Doc.SizedEntries (seen ++ [(key, d)]) := by
        rw [Doc.sizedEntries_iff] at hseen ⊢
        intro e he
        rcases List.mem_append.1 he with he | he
        · exact hseen e he
        · rw [List.mem_singleton.1 he]
          exact ⟨hlen, hsized⟩
      apply (ih (seen ++ [(key, d)]) r₃ hseen').mono
      rintro ⟨entries, r₄⟩ ⟨hcount, hentries, wires, hwires, hkeys, hvalues, hrest₄⟩
      rw [List.length_append, List.length_singleton] at hcount
      refine ⟨by omega, hentries, (wire, wire') :: wires, by rw [List.length_cons, hwires], ?_, ?_,
        ?_⟩
      · intro w hw
        rcases List.mem_cons.1 hw with rfl | hw
        -- a value stands beside the key, so the level below is one the limit allows
        · exact hwire _ hwire'.depth_le
        · exact hkeys w hw
      · intro w hw
        rcases List.mem_cons.1 hw with rfl | hw
        · exact hwire'
        · exact hvalues w hw
      · have hrest : r₁.rest = wire ++ r₂.rest := hrest₂
        have hrest' : r₂.rest = wire' ++ r₃.rest := hrest₃
        rw [← hrest₁, hrest, hrest', hrest₄, List.flatMap_cons]
        simp only [List.append_assoc]

/-- A map takes its header and then its entries, a key and a value each. -/
theorem mapBody_takes (h : ∀ r, Takes max (depth + 1) r.rest (value r)) {n : Nat} {head : Bytes}
    (hdepth : depth ≤ max) (hhead : MapHead n head) (hn : n < 2 ^ 32) :
    Takes max depth (head ++ r.rest) (r.mapBody value n) := by
  apply Result.Holds.bind (P := fun _ => True)
  · rw [checkCount]
    exact Result.Holds.ite (fun _ => trivial)
      (fun _ => Result.Holds.ite (fun _ => trivial) (fun _ => trivial))
  intro _ _
  apply Result.Holds.bind (mapEntries_takes h n [] r trivial)
  rintro ⟨entries, r'⟩ ⟨hlen, hsized, wires, rfl, hkeys, hvalues, hrest⟩
  have hcount : entries.length < 2 ^ 32 := by
    rw [List.length_nil, Nat.zero_add] at hlen
    exact hlen ▸ hn
  refine ⟨⟨head ++ wires.flatMap fun w => w.1 ++ w.2, ?_, .map hdepth hhead hkeys hvalues⟩,
    hcount, hsized⟩
  rw [hrest, List.append_assoc]

/-- A value is taken by the one rule of the grammar that its first byte selects. -/
theorem body_takes (h : ∀ r, Takes max (depth + 1) r.rest (value r)) (hdepth : depth ≤ max)
    (head : UInt8) (r : Reader) : Takes max depth (head :: r.rest) (r.body value head) := by
  obtain ⟨n, hn, rfl⟩ := exists_ofNat head
  rw [body, toNat_ofNat hn]
  -- ints, all families
  refine Result.Holds.ite (fun hhead => ?_) (fun _ => ?_)
  · exact lone_takes hdepth (.positive hhead) trivial
  refine Result.Holds.ite (fun hhead => ?_) (fun _ => ?_)
  · exact lone_takes hdepth (.negative hhead (by omega)) trivial
  refine Result.Holds.ite (fun hhead => ?_) (fun _ => ?_)
  · subst hhead
    exact unsigned_takes hdepth .uint8
  refine Result.Holds.ite (fun hhead => ?_) (fun _ => ?_)
  · subst hhead
    exact unsigned_takes hdepth .uint16
  refine Result.Holds.ite (fun hhead => ?_) (fun _ => ?_)
  · subst hhead
    exact unsigned_takes hdepth .uint32
  refine Result.Holds.ite (fun hhead => ?_) (fun _ => ?_)
  · subst hhead
    exact unsigned_takes hdepth .uint64
  refine Result.Holds.ite (fun hhead => ?_) (fun _ => ?_)
  · subst hhead
    exact signed_takes hdepth .int8
  refine Result.Holds.ite (fun hhead => ?_) (fun _ => ?_)
  · subst hhead
    exact signed_takes hdepth .int16
  refine Result.Holds.ite (fun hhead => ?_) (fun _ => ?_)
  · subst hhead
    exact signed_takes hdepth .int32
  refine Result.Holds.ite (fun hhead => ?_) (fun _ => ?_)
  · subst hhead
    exact signed_takes hdepth .int64
  -- other scalars
  refine Result.Holds.ite (fun hhead => ?_) (fun _ => ?_)
  · subst hhead
    exact lone_takes hdepth .nil trivial
  refine Result.Holds.ite (fun hhead => ?_) (fun _ => ?_)
  · subst hhead
    exact lone_takes hdepth .false trivial
  refine Result.Holds.ite (fun hhead => ?_) (fun _ => ?_)
  · subst hhead
    exact lone_takes hdepth .true trivial
  refine Result.Holds.ite (fun hhead => ?_) (fun _ => ?_)
  · subst hhead
    exact float32_takes hdepth
  refine Result.Holds.ite (fun hhead => ?_) (fun _ => ?_)
  · subst hhead
    exact float64_takes hdepth
  -- strings
  refine Result.Holds.ite (fun hhead => ?_) (fun _ => ?_)
  · obtain ⟨k, rfl⟩ : ∃ k, n = 0xA0 + k := ⟨n - 0xA0, by omega⟩
    have hk : (0xA0 + k) % 0x20 = k := by omega
    rw [hk]
    exact str_takes hdepth (.fixstr (by omega)) (by omega)
  refine Result.Holds.ite (fun hhead => ?_) (fun _ => ?_)
  · subst hhead
    exact counted_takes (fun n r' hn => str_takes hdepth (.str8 hn) (by omega))
  refine Result.Holds.ite (fun hhead => ?_) (fun _ => ?_)
  · subst hhead
    exact counted_takes (fun n r' hn => str_takes hdepth (.str16 hn) (by omega))
  refine Result.Holds.ite (fun hhead => ?_) (fun _ => ?_)
  · subst hhead
    exact counted_takes (fun n r' hn => str_takes hdepth (.str32 hn) (by omega))
  -- bins
  refine Result.Holds.ite (fun hhead => ?_) (fun _ => ?_)
  · subst hhead
    exact counted_takes (fun n r' hn => bin_takes hdepth (.bin8 hn) (by omega))
  refine Result.Holds.ite (fun hhead => ?_) (fun _ => ?_)
  · subst hhead
    exact counted_takes (fun n r' hn => bin_takes hdepth (.bin16 hn) (by omega))
  refine Result.Holds.ite (fun hhead => ?_) (fun _ => ?_)
  · subst hhead
    exact counted_takes (fun n r' hn => bin_takes hdepth (.bin32 hn) (by omega))
  -- arrays
  refine Result.Holds.ite (fun hhead => ?_) (fun _ => ?_)
  · obtain ⟨k, rfl⟩ : ∃ k, n = 0x90 + k := ⟨n - 0x90, by omega⟩
    have hk : (0x90 + k) % 0x10 = k := by omega
    rw [hk]
    exact arrayBody_takes h hdepth (.fixarray (by omega)) (by omega)
  refine Result.Holds.ite (fun hhead => ?_) (fun _ => ?_)
  · subst hhead
    exact counted_takes (fun n r' hn => arrayBody_takes h hdepth (.array16 hn) (by omega))
  refine Result.Holds.ite (fun hhead => ?_) (fun _ => ?_)
  · subst hhead
    exact counted_takes (fun n r' hn => arrayBody_takes h hdepth (.array32 hn) (by omega))
  -- maps
  refine Result.Holds.ite (fun hhead => ?_) (fun _ => ?_)
  · obtain ⟨k, rfl⟩ : ∃ k, n = 0x80 + k := ⟨n - 0x80, by omega⟩
    have hk : (0x80 + k) % 0x10 = k := by omega
    rw [hk]
    exact mapBody_takes h hdepth (.fixmap (by omega)) (by omega)
  refine Result.Holds.ite (fun hhead => ?_) (fun _ => ?_)
  · subst hhead
    exact counted_takes (fun n r' hn => mapBody_takes h hdepth (.map16 hn) (by omega))
  refine Result.Holds.ite (fun hhead => ?_) (fun _ => ?_)
  · subst hhead
    exact counted_takes (fun n r' hn => mapBody_takes h hdepth (.map32 hn) (by omega))
  -- extension types and the unused byte are refused
  exact Result.Holds.ite (fun _ => trivial) (fun _ => trivial)

end Nested

/-- The induction is on the levels the limit still allows. -/
theorem value_takes {levels : Nat} (hlevels : depth + levels = max + 1) (r : Reader) :
    Takes max depth r.rest (value levels r) := by
  induction levels generalizing depth r with
  | zero => trivial
  | succ levels ih =>
    rw [value, node]
    refine Result.Holds.bind (P := fun r' : Reader => r'.rest = r.rest)
      (Result.Holds.ite (fun _ => trivial) (fun _ => rfl)) ?_
    rintro ⟨rest, k, m⟩ hrest
    obtain rfl : rest = r.rest := hrest
    cases hbytes : r.rest with
    | nil => trivial
    | cons head tail =>
      exact body_takes (fun r => ih (by omega) r) (by omega) head ⟨tail, k, m⟩

end Reader

/-- What is decoded was derivable, and no length in it saturates a head. -/
theorem decodeDoc_takes {bytes : Bytes} {limits : DecodeLimits} {d : Doc}
    (h : decodeDoc bytes limits = .ok d) : Derives limits.maxDepth 0 bytes ∧ d.Sized := by
  rw [decodeDoc, Result.guard_eq_ok] at h
  obtain ⟨⟨d', r⟩, hread, hrest⟩ := Result.bind_eq_ok.1 h.2
  have htaken := Reader.value_takes (Nat.zero_add (limits.maxDepth + 1))
    ⟨bytes, limits.maxNodes, limits.maxDepth⟩
  rw [hread] at htaken
  obtain ⟨⟨wire, hbytes, hwire⟩, hsized⟩ := htaken
  dsimp only at hrest
  split at hrest
  · next hend =>
    cases hrest
    have hbytes : bytes = wire ++ r.rest := hbytes
    rw [List.isEmpty_iff.1 hend, List.append_nil] at hbytes
    rw [hbytes]
    exact ⟨hwire, hsized⟩
  · cases hrest

/-- The codec is exact within its limits, on documents whose counts fit a `u32`: a longer array
or map is written with a count that saturates, and does not come back. -/
theorem wire_codec (limits : DecodeLimits) :
    (∀ d, decodeDoc (encodeDoc d) limits = .ok d ↔ d.Sized ∧ d.Keyed ∧ d.Within limits)
      ∧ ∀ bytes d, decodeDoc bytes limits = .ok d → d.Accepted limits := by
  refine ⟨fun d => ⟨fun h => ?_, fun h => decodeDoc_of_sized h.1 h.2.1 h.2.2⟩,
    fun bytes d => decodeDoc_eq_ok⟩
  have haccepted := decodeDoc_eq_ok h
  refine ⟨(decodeDoc_takes h).2, haccepted.keyed, ?_, haccepted.depth, haccepted.nodes⟩
  rw [decodeDoc, Result.guard_eq_ok] at h
  have := h.1
  omega

/-! ## A count that saturates -/

theorem length_writeItems_nulls (n : Nat) :
    (writeItems (List.replicate n Doc.null)).length = n := by
  induction n with
  | zero => rfl
  | succ n ih =>
    rw [List.replicate_succ, writeItems, List.length_append, ih]
    exact Nat.add_comm 1 n

/-- An array of nulls: its items and its head are what it takes, one node each and one level. -/
theorem nulls_within (n : Nat) :
    (Doc.array (List.replicate n .null)).Keyed
      ∧ (Doc.array (List.replicate n .null)).Within ⟨n + 5, 1, n + 1⟩ := by
  have hhead : (writeArrayHeader n).length ≤ 5 := by
    rw [writeArrayHeader]
    repeat' split
    all_goals simp [length_beBytes]
  have hdepth : ∀ n, Doc.depthItems (List.replicate n .null) ≤ 1 := by
    intro n
    induction n with
    | zero => exact Nat.zero_le 1
    | succ n ih => exact Nat.max_le.2 ⟨Nat.le_refl 1, ih⟩
  have hnodes : ∀ n, Doc.nodesItems (List.replicate n .null) = n := by
    intro n
    induction n with
    | zero => rfl
    | succ n ih =>
      show 1 + Doc.nodesItems (List.replicate n .null) = n + 1
      rw [ih, Nat.add_comm]
  refine ⟨?_, ?_, hdepth n, ?_⟩
  · rw [Doc.Keyed, Doc.keyedItems_iff]
    intro d hd
    rw [List.eq_of_mem_replicate hd]
    trivial
  · show (writeArrayHeader _ ++ writeItems _).length ≤ n + 5
    rw [List.length_append, length_writeItems_nulls, List.length_replicate]
    omega
  · show Doc.nodesItems _ + 1 ≤ n + 1
    rw [hnodes]

/-- As many nulls as a `u32` cannot count. -/
def overlong : Doc := .array (List.replicate (2 ^ 32) .null)

/-- Distinct keys and wide limits do not bring back an array whose count saturates. -/
theorem overlong_array_is_lost :
    overlong.Keyed ∧ overlong.Within ⟨2 ^ 32 + 5, 1, 2 ^ 32 + 1⟩
      ∧ decodeDoc (encodeDoc overlong) ⟨2 ^ 32 + 5, 1, 2 ^ 32 + 1⟩ ≠ .ok overlong := by
  obtain ⟨hkeyed, hwithin⟩ := nulls_within (2 ^ 32)
  refine ⟨hkeyed, hwithin, fun h => ?_⟩
  have hcount : (List.replicate (2 ^ 32) Doc.null).length < 2 ^ 32 := (decodeDoc_takes h).2.1
  rw [List.length_replicate] at hcount
  exact absurd hcount (Nat.lt_irrefl _)

/-! ## The gate behind the decoder -/

/-- An integer is written as a value of the grammar, in the shortest header that fits. -/
theorem writeInt_derives {max depth : Nat} (hdepth : depth ≤ max) (v : Int64) :
    Derives max depth (writeInt v) := by
  have hnumber : ∀ {width n : Nat} {tag : UInt8}, ScalarHead width [tag] →
      Derives max depth (tag :: beBytes width n) := by
    intro width n tag hhead
    rw [← length_beBytes width n] at hhead
    exact Derives.scalar hdepth hhead
  have hlone : ∀ {n : Nat}, ScalarHead 0 [UInt8.ofNat n] → Derives max depth (beBytes 1 n) := by
    intro n hhead
    rw [beBytes_one]
    exact Derives.lone hdepth hhead
  simp only [writeInt]
  by_cases hpos : 0 ≤ v.toInt
  · rw [if_pos hpos]
    split
    · next h => exact hlone (.positive h)
    split
    · exact hnumber .uint8
    split
    · exact hnumber .uint16
    split
    · exact hnumber .uint32
    · exact hnumber .uint64
  · rw [if_neg hpos]
    split
    · next h => exact hlone (.negative (by omega) (by omega))
    split
    · exact hnumber .int8
    split
    · exact hnumber .int16
    split
    · exact hnumber .int32
    · exact hnumber .int64

/-- A string shorter than `2 ^ 32` bytes is written as a value of the grammar. -/
theorem writeStr_derives {max depth : Nat} (hdepth : depth ≤ max) {s : String}
    (h : (asBytes s).length < 2 ^ 32) : Derives max depth (writeStr s) := by
  refine .payload hdepth ?_
  rw [strHeader]
  split
  · next hn =>
    rw [beBytes_one]
    exact .fixstr hn
  split
  · exact .str8 (by omega)
  split
  · exact .str16 (by omega)
  · rw [Nat.min_eq_left (by omega)]
    exact .str32 (by omega)

/-- A binary shorter than `2 ^ 32` bytes is written as a value of the grammar. -/
theorem writeBin_derives {max depth : Nat} (hdepth : depth ≤ max) {b : Bytes}
    (h : b.length < 2 ^ 32) : Derives max depth (writeBin b) := by
  refine .payload hdepth ?_
  rw [binHeader]
  split
  · exact .bin8 (by omega)
  split
  · exact .bin16 (by omega)
  · rw [Nat.min_eq_left (by omega)]
    exact .bin32 (by omega)

theorem writeArrayHeader_head {n : Nat} (h : n < 2 ^ 32) : ArrayHead n (writeArrayHeader n) := by
  rw [writeArrayHeader]
  split
  · next hn =>
    rw [beBytes_one]
    exact .fixarray hn
  split
  · exact .array16 (by omega)
  · rw [Nat.min_eq_left (by omega)]
    exact .array32 (by omega)

theorem writeMapHeader_head {n : Nat} (h : n < 2 ^ 32) : MapHead n (writeMapHeader n) := by
  rw [writeMapHeader]
  split
  · next hn =>
    rw [beBytes_one]
    exact .fixmap hn
  split
  · exact .map16 (by omega)
  · rw [Nat.min_eq_left (by omega)]
    exact .map32 (by omega)

/-- Items are written one after another. -/
theorem writeItems_eq (items : List Doc) : writeItems items = (items.map writeDoc).flatten := by
  induction items with
  | nil => rfl
  | cons item items ih => rw [writeItems, ih, List.map_cons, List.flatten_cons]

/-- Entries are written one after another, each key before its value. -/
theorem writeEntries_eq (entries : List (String × Doc)) :
    writeEntries entries
      = (entries.map fun e => (writeStr e.1, writeDoc e.2)).flatMap fun w => w.1 ++ w.2 := by
  induction entries with
  | nil => rfl
  | cons e entries ih => rw [writeEntries, ih, List.map_cons, List.flatMap_cons]

/-- A document that saturates no head is written as the grammar has it, as deep as it nests. -/
theorem writeDoc_derives {max depth levels : Nat} {d : Doc} (hlevels : depth + levels = max + 1)
    (hdepth : d.depth < levels) (hsized : d.Sized) : Derives max depth (writeDoc d) := by
  induction levels generalizing depth d with
  | zero => cases hdepth
  | succ levels ih =>
    have hle : depth ≤ max := by omega
    cases d with
    | null => exact .lone hle .nil
    | bool b =>
      cases b
      · exact .lone hle .false
      · exact .lone hle .true
    | int v => exact writeInt_derives hle v
    | float v =>
      have hhead : ScalarHead (beBytes 8 v.bits.toNat).length [0xCB] := by
        rw [length_beBytes]
        exact .float64
      exact .scalar hle hhead
    | str s => exact writeStr_derives hle hsized
    | bin b => exact writeBin_derives hle hsized
    | array items =>
      obtain ⟨hcount, hitems⟩ := hsized
      rw [Doc.sizedItems_iff] at hitems
      rw [Doc.depth] at hdepth
      rw [writeDoc, writeItems_eq]
      refine .array hle ?_ ?_
      · rw [List.length_map]
        exact writeArrayHeader_head hcount
      · intro wire hwire
        obtain ⟨item, hitem, rfl⟩ := List.mem_map.1 hwire
        -- an item is one level deeper and has one level less below it
        have := Doc.depth_lt_items hitem
        exact ih (by omega) (by omega) (hitems item hitem)
    | map entries =>
      obtain ⟨hcount, hentries⟩ := hsized
      rw [Doc.sizedEntries_iff] at hentries
      rw [Doc.depth] at hdepth
      rw [writeDoc, writeEntries_eq]
      have hvalues : ∀ e ∈ entries, Derives max (depth + 1) (writeDoc e.2) := by
        intro e he
        have := Doc.depth_lt_entries he
        exact ih (by omega) (by omega) (hentries e he).2
      refine .map hle ?_ ?_ ?_
      · rw [List.length_map]
        exact writeMapHeader_head hcount
      · intro wire hwire
        obtain ⟨e, he, rfl⟩ := List.mem_map.1 hwire
        exact writeStr_derives (hvalues e he).depth_le (hentries e he).1
      · intro wire hwire
        obtain ⟨e, he, rfl⟩ := List.mem_map.1 hwire
        exact hvalues e he

/-- The gate accepts exactly its grammar, every message that the decoder accepts, and what a
decoded document is written as. -/
theorem json_gate {bytes : Bytes} :
    (validateJson bytes = .ok () ↔ Derives Msgpack.maxJsonDepth 0 bytes)
      ∧ ∀ d, decodeDoc bytes .default = .ok d →
        validateJson bytes = .ok () ∧ validateJson (encodeDoc d) = .ok () := by
  refine ⟨validateJson_iff, fun d h => ?_⟩
  obtain ⟨hbytes, hsized⟩ := decodeDoc_takes h
  have hdepth : d.depth ≤ Msgpack.maxJsonDepth := (decodeDoc_eq_ok h).depth
  refine ⟨validateJson_iff.2 hbytes, validateJson_iff.2 ?_⟩
  exact writeDoc_derives (Nat.zero_add (Msgpack.maxJsonDepth + 1)) (by omega) hsized

/-- A map in an array, read by the decoder. -/
theorem json_gate_map :
    validateJson [0x91, 0x81, 0xA1, 0x61, 0x01] = .ok () := by
  have hread : decodeDoc [0x91, 0x81, 0xA1, 0x61, 0x01] .default
      = .ok (.array [.map [("a", .int 1)]]) := by rfl
  exact (json_gate.2 _ hread).1

end Edb.Proto
