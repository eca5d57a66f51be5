import Edb.Proto.Value

/-!
# The MessagePack grammar

What a value is on the wire, apart from any reader of it: a head, and behind it a payload, the
items of an array, or the entries of a map. Extension types and the reserved byte have no rule.
`Derives max depth bytes` says that `bytes` are one value at nesting depth `depth` and that
nothing in it, map keys included, lies deeper than `max`.

* **The gate** (`validateJson_iff`): `validateJson` accepts the derivable byte strings of depth at
  most `maxJsonDepth` and no others.
-/

namespace Edb.Proto

open Edb.Types Edb.Lib

/-! ## Heads -/

/-- A head that fixes the length of its payload. -/
inductive ScalarHead : Nat → Bytes → Prop where
  | positive {n : Nat} (h : n ≤ 0x7F) : ScalarHead 0 [UInt8.ofNat n]
  | negative {n : Nat} (h : 0xE0 ≤ n) (h' : n ≤ 0xFF) : ScalarHead 0 [UInt8.ofNat n]
  | nil : ScalarHead 0 [0xC0]
  | false : ScalarHead 0 [0xC2]
  | true : ScalarHead 0 [0xC3]
  | uint8 : ScalarHead 1 [0xCC]
  | uint16 : ScalarHead 2 [0xCD]
  | uint32 : ScalarHead 4 [0xCE]
  | uint64 : ScalarHead 8 [0xCF]
  | int8 : ScalarHead 1 [0xD0]
  | int16 : ScalarHead 2 [0xD1]
  | int32 : ScalarHead 4 [0xD2]
  | int64 : ScalarHead 8 [0xD3]
  | float32 : ScalarHead 4 [0xCA]
  | float64 : ScalarHead 8 [0xCB]

/-- The head of a string or bin of `n` bytes. -/
inductive PayloadHead : Nat → Bytes → Prop where
  | fixstr {n : Nat} (h : n ≤ 0x1F) : PayloadHead n [UInt8.ofNat (0xA0 + n)]
  | str8 {n : Nat} (h : n < 256 ^ 1) : PayloadHead n (0xD9 :: beBytes 1 n)
  | str16 {n : Nat} (h : n < 256 ^ 2) : PayloadHead n (0xDA :: beBytes 2 n)
  | str32 {n : Nat} (h : n < 256 ^ 4) : PayloadHead n (0xDB :: beBytes 4 n)
  | bin8 {n : Nat} (h : n < 256 ^ 1) : PayloadHead n (0xC4 :: beBytes 1 n)
  | bin16 {n : Nat} (h : n < 256 ^ 2) : PayloadHead n (0xC5 :: beBytes 2 n)
  | bin32 {n : Nat} (h : n < 256 ^ 4) : PayloadHead n (0xC6 :: beBytes 4 n)

/-- The head of an array of `n` items. -/
inductive ArrayHead : Nat → Bytes → Prop where
  | fixarray {n : Nat} (h : n ≤ 0x0F) : ArrayHead n [UInt8.ofNat (0x90 + n)]
  | array16 {n : Nat} (h : n < 256 ^ 2) : ArrayHead n (0xDC :: beBytes 2 n)
  | array32 {n : Nat} (h : n < 256 ^ 4) : ArrayHead n (0xDD :: beBytes 4 n)

/-- The head of a map of `n` entries. -/
inductive MapHead : Nat → Bytes → Prop where
  | fixmap {n : Nat} (h : n ≤ 0x0F) : MapHead n [UInt8.ofNat (0x80 + n)]
  | map16 {n : Nat} (h : n < 256 ^ 2) : MapHead n (0xDE :: beBytes 2 n)
  | map32 {n : Nat} (h : n < 256 ^ 4) : MapHead n (0xDF :: beBytes 4 n)

/-- One value at a nesting depth, none of it deeper than `max`. The payload of a string is any
bytes. -/
inductive Derives (max : Nat) : Nat → Bytes → Prop where
  | scalar {depth : Nat} {head payload : Bytes} (hdepth : depth ≤ max)
      (h : ScalarHead payload.length head) : Derives max depth (head ++ payload)
  | payload {depth : Nat} {head payload : Bytes} (hdepth : depth ≤ max)
      (h : PayloadHead payload.length head) : Derives max depth (head ++ payload)
  | array {depth : Nat} {head : Bytes} {items : List Bytes} (hdepth : depth ≤ max)
      (h : ArrayHead items.length head) (hitems : ∀ item ∈ items, Derives max (depth + 1) item) :
      Derives max depth (head ++ items.flatten)
  | map {depth : Nat} {head : Bytes} {entries : List (Bytes × Bytes)} (hdepth : depth ≤ max)
      (h : MapHead entries.length head)
      (hkeys : ∀ e ∈ entries, Derives max (depth + 1) e.1)
      (hvalues : ∀ e ∈ entries, Derives max (depth + 1) e.2) :
      Derives max depth (head ++ entries.flatMap fun e => e.1 ++ e.2)

theorem Derives.depth_le {max depth : Nat} {bytes : Bytes} (h : Derives max depth bytes) :
    depth ≤ max := by
  cases h <;> assumption

/-- A head that nothing follows. -/
theorem Derives.lone {max depth : Nat} {head : Bytes} (hdepth : depth ≤ max)
    (h : ScalarHead 0 head) : Derives max depth head := by
  have : Derives max depth (head ++ []) := .scalar hdepth h
  rwa [List.append_nil] at this

/-! ## What a head announces -/

/-- A head with the extent of what follows it; an entry of a map is two items. -/
inductive Opens : Bytes → Msgpack.Extent → Prop where
  | scalar {n : Nat} {head : Bytes} (h : ScalarHead n head) : Opens head ⟨n, 0⟩
  | payload {n : Nat} {head : Bytes} (h : PayloadHead n head) : Opens head ⟨n, 0⟩
  | array {n : Nat} {head : Bytes} (h : ArrayHead n head) : Opens head ⟨0, n⟩
  | map {n : Nat} {head : Bytes} (h : MapHead n head) : Opens head ⟨0, n * 2⟩

/-- Taking `n` bytes splits them off the front. -/
theorem take_eq_ok {n : Nat} {bytes head rest : Bytes} :
    Msgpack.take n bytes = .ok (head, rest) ↔ head.length = n ∧ bytes = head ++ rest := by
  rw [Msgpack.take]
  constructor
  · intro h
    split at h
    · cases h
    · cases h
      exact ⟨by rw [List.length_take]; omega, (List.take_append_drop n bytes).symm⟩
  · rintro ⟨hlen, rfl⟩
    rw [if_neg (by rw [List.length_append]; omega), List.take_left' hlen, List.drop_left' hlen]

/-- A word of bytes is the one its value is written as. -/
theorem beBytes_ofDigits (word : Bytes) :
    Lex.ofDigits 256 (word.map UInt8.toNat) < 256 ^ word.length
      ∧ beBytes word.length (Lex.ofDigits 256 (word.map UInt8.toNat)) = word := by
  have hdigit : ∀ d ∈ word.map UInt8.toNat, d < 256 := by
    intro d hd
    obtain ⟨b, _, rfl⟩ := List.mem_map.1 hd
    exact b.toNat_lt
  have hlt := Lex.ofDigits_lt hdigit
  have hdigits := Lex.digits_ofDigits hdigit
  rw [List.length_map] at hlt hdigits
  refine ⟨hlt, ?_⟩
  rw [beBytes, hdigits, List.map_map]
  simp [Function.comp_def]

/-- Reading `n` big-endian bytes reads the bytes that write the number. -/
theorem takeBe_eq_ok {n v : Nat} {bytes rest : Bytes}
    (h : Msgpack.takeBe n bytes = .ok (v, rest)) : v < 256 ^ n ∧ bytes = beBytes n v ++ rest := by
  obtain ⟨⟨word, rest'⟩, htake, hval⟩ := Result.bind_eq_ok.1 h
  obtain ⟨rfl, rfl⟩ := take_eq_ok.1 htake
  obtain ⟨hlt, hword⟩ := beBytes_ofDigits word
  cases hval
  exact ⟨hlt, by rw [hword]⟩

theorem byte_eq_ok {bytes rest : Bytes} {b : UInt8} :
    Msgpack.byte bytes = .ok (b, rest) ↔ bytes = b :: rest := by
  cases bytes with
  | nil => simp [Msgpack.byte, Msgpack.bad]
  | cons a tail => simp [Msgpack.byte]

/-- Every byte is the byte of its value. -/
theorem exists_ofNat (b : UInt8) : ∃ n < 256, b = UInt8.ofNat n :=
  ⟨b.toNat, b.toNat_lt, (UInt8.ofNat_toNat).symm⟩

/-- The head that stands before `rest'`, and its extent. -/
abbrev Opened (bytes : Bytes) (p : Msgpack.Extent × Bytes) : Prop :=
  ∃ head, bytes = head ++ p.2 ∧ Opens head p.1

/-- A length or count read behind the head byte `tag`. -/
theorem word_opens {width : Nat} {f : Nat → Msgpack.Extent} {tag : UInt8} {rest : Bytes}
    (hopens : ∀ n < 256 ^ width, Opens (tag :: beBytes width n) (f n)) :
    Result.Holds (fun _ => True) (Opened (tag :: rest))
      (do let (n, rest) ← Msgpack.takeBe width rest; pure (f n, rest)) := by
  cases htake : Msgpack.takeBe width rest with
  | error e => trivial
  | ok p =>
    obtain ⟨n, rest'⟩ := p
    obtain ⟨hn, rfl⟩ := takeBe_eq_ok htake
    exact ⟨tag :: beBytes width n, rfl, hopens n hn⟩

/-- Whatever header the reader accepts is one that opens a value. -/
theorem extent_opened (head : UInt8) (rest : Bytes) :
    Result.Holds (fun _ => True) (Opened (head :: rest)) (Msgpack.extent head rest) := by
  obtain ⟨n, hn, rfl⟩ := exists_ofNat head
  rw [Msgpack.extent, Reader.toNat_ofNat hn]
  -- scalars
  refine Result.Holds.ite (fun hhead => ?_) (fun _ => ?_)
  · refine ⟨[UInt8.ofNat n], rfl, .scalar ?_⟩
    rcases hhead with hle | hle | rfl | rfl | rfl
    · exact .positive hle
    · exact .negative hle (by omega)
    · exact .nil
    · exact .false
    · exact .true
  refine Result.Holds.ite (fun hhead => ?_) (fun _ => ?_)
  · rcases hhead with rfl | rfl
    · exact ⟨_, rfl, .scalar .uint8⟩
    · exact ⟨_, rfl, .scalar .int8⟩
  refine Result.Holds.ite (fun hhead => ?_) (fun _ => ?_)
  · rcases hhead with rfl | rfl
    · exact ⟨_, rfl, .scalar .uint16⟩
    · exact ⟨_, rfl, .scalar .int16⟩
  refine Result.Holds.ite (fun hhead => ?_) (fun _ => ?_)
  · rcases hhead with rfl | rfl | rfl
    · exact ⟨_, rfl, .scalar .uint32⟩
    · exact ⟨_, rfl, .scalar .int32⟩
    · exact ⟨_, rfl, .scalar .float32⟩
  refine Result.Holds.ite (fun hhead => ?_) (fun _ => ?_)
  · rcases hhead with rfl | rfl | rfl
    · exact ⟨_, rfl, .scalar .uint64⟩
    · exact ⟨_, rfl, .scalar .int64⟩
    · exact ⟨_, rfl, .scalar .float64⟩
  -- strings and bins
  refine Result.Holds.ite (fun hhead => ?_) (fun _ => ?_)
  · obtain ⟨k, rfl⟩ : ∃ k, n = 0xA0 + k := ⟨n - 0xA0, by omega⟩
    have hk : (0xA0 + k) % 0x20 = k := by omega
    rw [hk]
    exact ⟨_, rfl, .payload (.fixstr (by omega))⟩
  refine Result.Holds.ite (fun hhead => ?_) (fun _ => ?_)
  · rcases hhead with rfl | rfl
    · exact word_opens (fun n hn => .payload (.str8 hn))
    · exact word_opens (fun n hn => .payload (.bin8 hn))
  refine Result.Holds.ite (fun hhead => ?_) (fun _ => ?_)
  · rcases hhead with rfl | rfl
    · exact word_opens (fun n hn => .payload (.str16 hn))
    · exact word_opens (fun n hn => .payload (.bin16 hn))
  refine Result.Holds.ite (fun hhead => ?_) (fun _ => ?_)
  · rcases hhead with rfl | rfl
    · exact word_opens (fun n hn => .payload (.str32 hn))
    · exact word_opens (fun n hn => .payload (.bin32 hn))
  -- containers
  refine Result.Holds.ite (fun hhead => ?_) (fun _ => ?_)
  · obtain ⟨k, rfl⟩ : ∃ k, n = 0x80 + k := ⟨n - 0x80, by omega⟩
    have hk : (0x80 + k) % 0x10 = k := by omega
    rw [hk]
    exact ⟨_, rfl, .map (.fixmap (by omega))⟩
  refine Result.Holds.ite (fun hhead => ?_) (fun _ => ?_)
  · obtain ⟨k, rfl⟩ : ∃ k, n = 0x90 + k := ⟨n - 0x90, by omega⟩
    have hk : (0x90 + k) % 0x10 = k := by omega
    rw [hk]
    exact ⟨_, rfl, .array (.fixarray (by omega))⟩
  refine Result.Holds.ite (fun hhead => ?_) (fun _ => ?_)
  · subst hhead
    exact word_opens (fun n hn => .array (.array16 hn))
  refine Result.Holds.ite (fun hhead => ?_) (fun _ => ?_)
  · subst hhead
    exact word_opens (fun n hn => .array (.array32 hn))
  refine Result.Holds.ite (fun hhead => ?_) (fun _ => ?_)
  · subst hhead
    exact word_opens (fun n hn => .map (.map16 hn))
  refine Result.Holds.ite (fun hhead => ?_) (fun _ => ?_)
  · subst hhead
    exact word_opens (fun n hn => .map (.map32 hn))
  -- extension types and the reserved byte
  exact Result.Holds.ite (fun _ => trivial) (fun _ => trivial)

/-- A word behind its head byte is read as its value. -/
theorem extent_word {width n : Nat} {tag : UInt8} {f : Nat → Msgpack.Extent} (h : n < 256 ^ width)
    (rest : Bytes)
    (htag : ∀ rest, Msgpack.extent tag rest
      = (do let (n, rest) ← Msgpack.takeBe width rest; pure (f n, rest))) :
    Msgpack.extent tag (beBytes width n ++ rest) = .ok (f n, rest) := by
  rw [htag, takeBe_append h]
  rfl

/-- Every header that opens a value is read for what it announces. -/
theorem extent_of_opens {head : UInt8} {pre rest : Bytes} {ext : Msgpack.Extent}
    (h : Opens (head :: pre) ext) : Msgpack.extent head (pre ++ rest) = .ok (ext, rest) := by
  cases h with
  | scalar h =>
    cases h with
    | positive hn =>
      rw [Msgpack.extent, Reader.toNat_ofNat (by omega), if_pos (.inl hn)]
      rfl
    | negative hn hn' =>
      rw [Msgpack.extent, Reader.toNat_ofNat (by omega), if_pos (.inr (.inl hn))]
      rfl
    | _ => rfl
  | payload h =>
    cases h with
    | fixstr hn =>
      have hmod : ∀ n ≤ 0x20 - 1, (0xA0 + n) % 0x20 = n := by omega
      rw [Msgpack.extent, Reader.toNat_ofNat (by omega)]
      -- the branches of the shorter ranges above it do not apply
      iterate 5 rw [if_neg (by omega)]
      rw [if_pos (by omega), hmod _ hn]
      rfl
    | str8 hn => exact extent_word (f := fun n => ⟨n, 0⟩) hn rest (fun _ => rfl)
    | str16 hn => exact extent_word (f := fun n => ⟨n, 0⟩) hn rest (fun _ => rfl)
    | str32 hn => exact extent_word (f := fun n => ⟨n, 0⟩) hn rest (fun _ => rfl)
    | bin8 hn => exact extent_word (f := fun n => ⟨n, 0⟩) hn rest (fun _ => rfl)
    | bin16 hn => exact extent_word (f := fun n => ⟨n, 0⟩) hn rest (fun _ => rfl)
    | bin32 hn => exact extent_word (f := fun n => ⟨n, 0⟩) hn rest (fun _ => rfl)
  | array h =>
    cases h with
    | fixarray hn =>
      have hmod : ∀ n ≤ 0x10 - 1, (0x90 + n) % 0x10 = n := by omega
      rw [Msgpack.extent, Reader.toNat_ofNat (by omega)]
      iterate 10 rw [if_neg (by omega)]
      rw [if_pos (by omega), hmod _ hn]
      rfl
    | array16 hn => exact extent_word (f := fun n => ⟨0, n⟩) hn rest (fun _ => rfl)
    | array32 hn => exact extent_word (f := fun n => ⟨0, n⟩) hn rest (fun _ => rfl)
  | map h =>
    cases h with
    | fixmap hn =>
      have hmod : ∀ n ≤ 0x10 - 1, (0x80 + n) % 0x10 = n := by omega
      rw [Msgpack.extent, Reader.toNat_ofNat (by omega)]
      iterate 9 rw [if_neg (by omega)]
      rw [if_pos (by omega), hmod _ hn]
      rfl
    | map16 hn => exact extent_word (f := fun n => ⟨0, n * 2⟩) hn rest (fun _ => rfl)
    | map32 hn => exact extent_word (f := fun n => ⟨0, n * 2⟩) hn rest (fun _ => rfl)

theorem Opens.ne_nil {head : Bytes} {ext : Msgpack.Extent} (h : Opens head ext) : head ≠ [] := by
  intro hnil
  subst hnil
  rcases h with h | h | h | h <;> cases h

/-! ## The gate -/

/-- A value in the terms of its extent: a payload and items, whichever the head asks for. -/
structure Spelled (max depth : Nat) (value : Bytes) : Prop where
  depth_le : depth ≤ max
  parts : ∃ (head : Bytes) (ext : Msgpack.Extent) (payload : Bytes) (items : List Bytes),
    Opens head ext ∧ payload.length = ext.bytes ∧ items.length = ext.items
      ∧ (∀ item ∈ items, Derives max (depth + 1) item) ∧ value = head ++ payload ++ items.flatten

/-- Items of an even number are the keys and values of entries. -/
theorem exists_entries {α : Type} {n : Nat} {items : List α} (h : items.length = n * 2) :
    ∃ entries : List (α × α), entries.length = n
      ∧ items = entries.flatMap fun e => [e.1, e.2] := by
  induction n generalizing items with
  | zero => exact ⟨[], rfl, List.length_eq_zero_iff.1 (by omega)⟩
  | succ n ih =>
    match items, h with
    | key :: value :: items, h =>
      rw [List.length_cons, List.length_cons] at h
      obtain ⟨entries, hlen, hitems⟩ := ih (show items.length = n * 2 by omega)
      refine ⟨(key, value) :: entries, by rw [List.length_cons, hlen], ?_⟩
      rw [List.flatMap_cons, ← hitems]
      rfl
    | [_], h => rw [List.length_singleton] at h; omega
    | [], h => rw [List.length_nil] at h; omega

theorem flatten_entries {α : Type} (entries : List (List α × List α)) :
    (entries.flatMap fun e => [e.1, e.2]).flatten = entries.flatMap fun e => e.1 ++ e.2 := by
  induction entries with
  | nil => rfl
  | cons e entries ih =>
    rw [List.flatMap_cons, List.flatten_append, ih, List.flatMap_cons]
    simp

/-- A derived value is spelled by the prefix grammar. -/
theorem Derives.spelled {max depth : Nat} {value : Bytes} (h : Derives max depth value) :
    Spelled max depth value := by
  refine ⟨h.depth_le, ?_⟩
  cases h with
  | @scalar _ head payload _ h =>
    exact ⟨head, _, payload, [], .scalar h, rfl, rfl, (fun _ hi => by cases hi), by simp⟩
  | @payload _ head payload _ h =>
    exact ⟨head, _, payload, [], .payload h, rfl, rfl, (fun _ hi => by cases hi), by simp⟩
  | @array _ head items _ h hitems =>
    exact ⟨head, _, [], items, .array h, rfl, rfl, hitems, by simp⟩
  | @map _ head entries _ h hkeys hvalues =>
    refine ⟨head, _, [], entries.flatMap fun e => [e.1, e.2], .map h, rfl, ?_, ?_, ?_⟩
    · simp
    · intro item hitem
      obtain ⟨e, he, hitem⟩ := List.mem_flatMap.1 hitem
      rcases List.mem_pair.1 hitem with rfl | rfl
      · exact hkeys e he
      · exact hvalues e he
    · rw [flatten_entries, List.append_nil]

/-- A spelled value is derived: the two grammars agree. -/
theorem Spelled.derives {max depth : Nat} {value : Bytes} (h : Spelled max depth value) :
    Derives max depth value := by
  obtain ⟨hdepth, head, ext, payload, items, hopens, hpayload, hitems, hderives, rfl⟩ := h
  cases hopens with
  | scalar h =>
    obtain rfl := List.length_eq_zero_iff.1 hitems
    subst hpayload
    rw [List.flatten_nil, List.append_nil]
    exact .scalar hdepth h
  | payload h =>
    obtain rfl := List.length_eq_zero_iff.1 hitems
    subst hpayload
    rw [List.flatten_nil, List.append_nil]
    exact .payload hdepth h
  | array h =>
    obtain rfl := List.length_eq_zero_iff.1 hpayload
    subst hitems
    rw [List.append_nil]
    exact .array hdepth h hderives
  | map h =>
    obtain rfl := List.length_eq_zero_iff.1 hpayload
    obtain ⟨entries, rfl, rfl⟩ := exists_entries hitems
    rw [List.append_nil, flatten_entries]
    refine .map hdepth h ?_ ?_
    · intro e he
      exact hderives _ (List.mem_flatMap.2 ⟨e, he, by simp⟩)
    · intro e he
      exact hderives _ (List.mem_flatMap.2 ⟨e, he, by simp⟩)

/-- A repeated reader takes one piece after the other. -/
theorem repeatReader_iff {step : Bytes → Except TypeError Bytes} {P : Bytes → Prop}
    (hstep : ∀ bytes rest, step bytes = .ok rest ↔ ∃ item, P item ∧ bytes = item ++ rest)
    (n : Nat) (bytes rest : Bytes) :
    Msgpack.repeatReader step n bytes = .ok rest ↔
      ∃ items : List Bytes, items.length = n ∧ (∀ item ∈ items, P item)
        ∧ bytes = items.flatten ++ rest := by
  induction n generalizing bytes with
  | zero =>
    constructor
    · intro h
      cases h
      exact ⟨[], rfl, (fun _ hi => by cases hi), rfl⟩
    · rintro ⟨items, hlen, _, rfl⟩
      obtain rfl := List.length_eq_zero_iff.1 hlen
      rfl
  | succ n ih =>
    constructor
    · intro h
      obtain ⟨rest', hfirst, hrest⟩ := Result.bind_eq_ok.1 h
      -- the first item is what the step takes, the others come from the rest
      obtain ⟨item, hitem, rfl⟩ := (hstep _ _).1 hfirst
      obtain ⟨items, hlen, hitems, rfl⟩ := (ih _).1 hrest
      refine ⟨item :: items, by rw [List.length_cons, hlen], ?_, ?_⟩
      · intro i hi
        rcases List.mem_cons.1 hi with rfl | hi
        · exact hitem
        · exact hitems i hi
      · rw [List.flatten_cons, List.append_assoc]
    · rintro ⟨items, hlen, hitems, rfl⟩
      match items, hlen with
      | item :: items, hlen =>
        have hfirst := (hstep (item ++ (items.flatten ++ rest)) (items.flatten ++ rest)).2
          ⟨item, hitems item (by simp), rfl⟩
        have hrest := (ih (items.flatten ++ rest)).2
          ⟨items, by simpa using hlen, fun i hi => hitems i (List.mem_cons_of_mem _ hi), rfl⟩
        rw [List.flatten_cons, List.append_assoc, Msgpack.repeatReader, hfirst, Result.ok_bind,
          hrest]

/-- What the walk takes off the front is one derivable value. The induction is on the levels the
limit still allows. -/
theorem skipValue_iff {levels depth : Nat} (hlevels : depth + levels = Msgpack.maxJsonDepth + 1)
    (bytes rest : Bytes) :
    Msgpack.skipValue levels bytes = .ok rest ↔
      ∃ value, Derives Msgpack.maxJsonDepth depth value ∧ bytes = value ++ rest := by
  induction levels generalizing depth bytes rest with
  | zero =>
    constructor
    · intro h
      cases h
    · rintro ⟨value, hvalue, _⟩
      have := hvalue.depth_le
      omega
  | succ levels ih =>
    have hbelow : depth + 1 + levels = Msgpack.maxJsonDepth + 1 := by omega
    -- the items, or the keys and values, are one level deeper
    have hitems := repeatReader_iff (ih hbelow)
    constructor
    · intro h
      -- the reader takes the header, the payload it announces and the items it announces
      obtain ⟨⟨head, rest₁⟩, hbyte, hhead⟩ := Result.bind_eq_ok.1 h
      obtain ⟨⟨ext, rest₂⟩, hext, hafter⟩ := Result.bind_eq_ok.1 hhead
      obtain ⟨⟨payload, rest₃⟩, htake, hrepeat⟩ := Result.bind_eq_ok.1 hafter
      have hopened := extent_opened head rest₁
      rw [hext] at hopened
      obtain ⟨pre, hpre, hopens⟩ := hopened
      obtain ⟨hpayload, rfl⟩ := take_eq_ok.1 htake
      obtain ⟨items, hlen, hderives, rfl⟩ := (hitems _ _ _).1 hrepeat
      refine ⟨pre ++ payload ++ items.flatten, Spelled.derives ⟨by omega, ?_⟩, ?_⟩
      · exact ⟨pre, ext, payload, items, hopens, hpayload, hlen, hderives, rfl⟩
      · rw [byte_eq_ok.1 hbyte, hpre]
        simp only [List.append_assoc]
    · rintro ⟨value, hvalue, rfl⟩
      obtain ⟨_, pre, ext, payload, items, hopens, hpayload, hlen, hderives, rfl⟩ := hvalue.spelled
      -- a header is never empty: its first byte is the one the reader branches on
      match pre, hopens.ne_nil with
      | head :: pre, _ =>
        have hext : Msgpack.extent head (pre ++ (payload ++ (items.flatten ++ rest)))
            = .ok (ext, payload ++ (items.flatten ++ rest)) := extent_of_opens hopens
        have htake : Msgpack.take ext.bytes (payload ++ (items.flatten ++ rest))
            = .ok (payload, items.flatten ++ rest) := take_eq_ok.2 ⟨hpayload, rfl⟩
        have hrepeat := (hitems ext.items (items.flatten ++ rest) rest).2
          ⟨items, hlen, hderives, rfl⟩
        simp only [List.append_assoc, List.cons_append]
        rw [Msgpack.skipValue, Msgpack.byte, Result.ok_bind]
        dsimp only
        rw [hext, Result.ok_bind]
        dsimp only
        rw [htake, Result.ok_bind]
        exact hrepeat

/-- The gate of json columns accepts exactly the values that the grammar derives within the
depth limit. -/
theorem validateJson_iff {bytes : Bytes} :
    validateJson bytes = .ok () ↔ Derives Msgpack.maxJsonDepth 0 bytes := by
  have hskip := skipValue_iff (Nat.zero_add (Msgpack.maxJsonDepth + 1)) bytes []
  simp only [List.append_nil, exists_eq_right'] at hskip
  rw [← hskip]
  constructor
  · intro h
    obtain ⟨rest, hwalk, hrest⟩ := Result.bind_eq_ok.1 h
    split at hrest
    · next hend => rw [hwalk, hend]
    · cases hrest
  · intro h
    rw [validateJson, h]
    rfl

end Edb.Proto
