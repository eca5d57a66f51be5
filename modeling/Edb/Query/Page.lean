import Edb.Query.Order
import Edb.Query.Stream

/-!
# Pages

A page is the core of a plan run in full, resumed after a key, offset and cut to the limit;
a full page with rows behind it carries a token that holds the key of its last row. The limit
and the cursor are peeled off the top of the plan, and the keys are those of a sort directly
below them.
-/

namespace Edb.Query

open Edb.Types Edb.Proto Edb.Catalog Edb.Lib

/-- The number of join operators anywhere in a plan. -/
def countJoins : Plan → Nat
  | .scan _ _ => 0
  | .indexScan _ _ _ _ => 0
  | .pkLookup _ _ _ => 0
  | .join _ left right _ => 1 + countJoins left + countJoins right
  | .filter input _ => countJoins input
  | .project input _ => countJoins input
  | .aggregate input _ _ => countJoins input
  | .sort input _ => countJoins input
  | .distinct input => countJoins input
  | .limit input _ _ => countJoins input
  | .cursor input _ => countJoins input

/-- Reject a plan with more joins than the cap. -/
def checkJoinCount (plan : Plan) (limits : ResourceLimits) : ExecResult Unit :=
  if countJoins plan > limits.maxJoins then
    .error (.resourceLimit ("plan uses " ++ toString (countJoins plan) ++ " joins (cap is "
      ++ toString limits.maxJoins ++ ")"))
  else .ok ()

/-- The pagination wrappers of a plan. -/
structure Wrappers where
  limit : Option Nat
  offset : Nat
  resume : Option Bytes
  deriving DecidableEq, Repr

/-- Peel the wrappers off the top; of several, the innermost counts. -/
def peel : Plan → Wrappers → Plan × Wrappers
  | .limit input limit offset, w => peel input { w with limit := limit, offset := offset }
  | .cursor input token, w => peel input { w with resume := some token }
  | core, w => (core, w)

/-- The keys of an ordered core. -/
def orderingOf : Plan → Option (List SortKey)
  | .sort _ keys => some keys
  | _ => none

/-- Compare two key tuples under the directions; none where an index is out of range. -/
def keyCmp : List SortKey → Row → Row → Option Ordering
  | [], _, _ => some .eq
  | key :: keys, a :: as, b :: bs =>
    let ord := inDir key.dir (valueOrder a b)
    if ord ≠ .eq then some ord else keyCmp keys as bs
  | _ :: _, _, _ => none

section

variable (fx : Intrinsics)

/-- Whether a row sorts strictly after the resume key; a row without a key does not. -/
def rowAfter (keys : List SortKey) (shape : Shape) (resume row : Row) : ExecResult Bool :=
  match sortKeys fx keys shape row with
  | .ok key =>
    match keyCmp keys key resume with
    | some ord => .ok (ord == .gt)
    | none => .error .panicked
  | .error _ => .ok false

/-- Keep the rows after the resume key. -/
def retainAfter (keys : List SortKey) (shape : Shape) (resume : Row) :
    List Row → ExecResult (List Row)
  | [] => .ok []
  | row :: rows => do
    let keep ← rowAfter fx keys shape resume row
    let rest ← retainAfter keys shape resume rows
    pure (if keep then row :: rest else rest)

def ofTypes {α : Type} : Except TypeError α → ExecResult α
  | .ok a => .ok a
  | .error e => .error (.type e)

theorem ofTypes_eq_ok {α : Type} {x : Except TypeError α} {a : α} :
    ofTypes x = .ok a ↔ x = .ok a := by
  cases x <;> simp [ofTypes]

/-- The continuation token after a row: its key under the cursor envelope. -/
def encodeResume (keys : List SortKey) (shape : Shape) (row : Row) : ExecResult Bytes := do
  let key ← ofEval (sortKeys fx keys shape row)
  let payload ← ofTypes (Types.encodeRow key)
  pure (encodeCursorToken payload)

/-- The key a token carries. -/
def decodeResume (token : Bytes) : ExecResult Row :=
  match decodeCursorToken token with
  | none => .error .badCursor
  | some payload =>
    match decodeRow payload with
    | .ok key => .ok key
    | .error _ => .error .badCursor

/-- Drop everything up to the cursor's position. -/
def resumeRows (ordering : Option (List SortKey)) (shape : Shape) (rows : List Row) :
    Option Bytes → ExecResult (List Row)
  | none => .ok rows
  | some token => do
    let key ← decodeResume token
    match ordering with
    | none => .error .badCursor
    | some keys => retainAfter fx keys shape key rows

/-- The token of a page whose last row is given. -/
def continuation (ordering : Option (List SortKey)) (shape : Shape) (last : Option Row) :
    ExecResult (Option Bytes) :=
  match ordering, last with
  | some keys, some row => do
    let token ← encodeResume fx keys shape row
    pure (some token)
  | _, _ => .ok none

/-- Cut the rows to a page. -/
def cut (ordering : Option (List SortKey)) (shape : Shape) (rows : List Row) :
    Option Nat → ExecResult Page
  | none => .ok ⟨shape, rows, none⟩
  | some n => do
    let page := rows.take n
    let cursor ← if rows.length > n then continuation fx ordering shape page.getLast? else .ok none
    pure ⟨shape, page, cursor⟩

variable (snap : CatSnapshot)

/-- Execute a plan and return one page under the caps. -/
def executePageWith (plan : Plan) (limits : ResourceLimits) : ExecResult Page := do
  checkJoinCount plan limits
  let (core, w) := peel plan ⟨none, 0, none⟩
  let node ← build fx snap limits core
  let rows ← collect limits node.items
  let rows ← resumeRows fx (orderingOf core) node.shape rows w.resume
  cut fx (orderingOf core) node.shape (rows.drop w.offset) w.limit

/-- Execute a plan and return one page under the default caps. -/
def executePage (plan : Plan) : ExecResult Page :=
  executePageWith fx snap plan ResourceLimits.default

end

/-! ## Key tuples of one kind per position -/

/-- Each position holds values of a single kind, or null. -/
abbrev OfKinds (kinds : List TypeKind) (key : Row) : Prop :=
  List.Forall₂ (fun k (v : Value) => v.kind = none ∨ v.kind = some k) kinds key

/-- Within one kind the two orders agree. -/
theorem valueOrder_eq_logicalCmp {k : TypeKind} {a b : Value}
    (ha : a.kind = none ∨ a.kind = some k) (hb : b.kind = none ∨ b.kind = some k) :
    valueOrder a b = a.logicalCmp b := by
  unfold valueOrder
  split
  · rcases ha with ha | ha
    · cases ha
    · rcases hb with hb | hb
      · cases hb
      · cases ha.trans hb.symm
  · rcases ha with ha | ha
    · cases ha
    · rcases hb with hb | hb
      · cases hb
      · cases ha.trans hb.symm
  · rfl

/-- The sort order is an order on tuples of one kind per position, in every mixture of
directions. -/
theorem keyOrder_kinds (keys : List SortKey) (kinds : List TypeKind) :
    Keyset.OrderOn (keyOrder keys) (OfKinds kinds) := by
  let column : TypeKind → Value → Prop := fun k v => v.kind = none ∨ v.kind = some k
  have hcolumn : ∀ k, Keyset.OrderOn valueOrder (column k) := fun k =>
    (Value.logicalCmp_order.mono (fun _ _ => trivial)).congr
      (fun a b ha hb => valueOrder_eq_logicalCmp ha hb)
  have horder := keyOrder_order keys (kinds.map column) (by
    intro P hP
    obtain ⟨k, _, rfl⟩ := List.mem_map.1 hP
    exact hcolumn k)
  exact horder.mono (fun key hkey => List.forall₂_map_left_iff.2 hkey)

/-- The resume comparison is the sort order, on tuples of the right length. -/
theorem keyCmp_eq_keyOrder {keys : List SortKey} :
    ∀ {a b : Row}, a.length = keys.length → b.length = keys.length →
      keyCmp keys a b = some (keyOrder keys a b) := by
  induction keys with
  | nil =>
    intro a b ha hb
    rw [List.length_eq_zero_iff.1 ha, List.length_eq_zero_iff.1 hb]
    rfl
  | cons key keys ih =>
    intro a b ha hb
    obtain ⟨v, vs, rfl⟩ := List.exists_cons_of_length_eq_add_one ha
    obtain ⟨w, ws, rfl⟩ := List.exists_cons_of_length_eq_add_one hb
    have hrest := ih (a := vs) (b := ws) (by simpa using ha) (by simpa using hb)
    rw [keyCmp, keyOrder, hrest]
    cases inDir key.dir (valueOrder v w) <;> rfl

/-! ## Sorted relations -/

section

variable {fx : Intrinsics} {keys : List SortKey} {shape : Shape}

/-- The key of a row, when it has one. -/
def keyOf (fx : Intrinsics) (keys : List SortKey) (shape : Shape) (row : Row) : Row :=
  (sortKeys fx keys shape row).toOption.getD []

/-- Every row has a key. -/
def Keyed (fx : Intrinsics) (keys : List SortKey) (shape : Shape) (rows : List Row) : Prop :=
  ∀ row ∈ rows, sortKeys fx keys shape row = .ok (keyOf fx keys shape row)

theorem keyOf_of_eq_ok {row key : Row} (h : sortKeys fx keys shape row = .ok key) :
    keyOf fx keys shape row = key := by
  rw [keyOf, h]
  rfl

theorem length_of_sortKeys {row key : Row} (h : sortKeys fx keys shape row = .ok key) :
    key.length = keys.length := (Result.mapM_eq_ok.1 h).length_eq.symm

/-- The key tuples hold one kind per position. -/
def SingleKinded (fx : Intrinsics) (keys : List SortKey) (shape : Shape) (rows : List Row) :
    Prop :=
  ∃ kinds, ∀ row ∈ rows, OfKinds kinds (keyOf fx keys shape row)

/-- No two rows have equal key tuples. -/
def DistinctKeys (fx : Intrinsics) (keys : List SortKey) (shape : Shape) (rows : List Row) :
    Prop :=
  rows.Pairwise (fun a b =>
    keyOrder keys (keyOf fx keys shape a) (keyOf fx keys shape b) ≠ .eq)

instance (fx : Intrinsics) (keys : List SortKey) (shape : Shape) (rows : List Row) :
    Decidable (DistinctKeys fx keys shape rows) :=
  inferInstanceAs (Decidable (List.Pairwise _ rows))

/-- Every key tuple fits a token. -/
def TokensFit (fx : Intrinsics) (keys : List SortKey) (shape : Shape) (rows : List Row) : Prop :=
  ∀ row ∈ rows, ∃ payload, Types.encodeRow (keyOf fx keys shape row) = .ok payload

/-- The rows of a sorted relation come out of the key tuples that were sorted. -/
theorem sort_eq_ok {rel out : Relation} (h : sort fx rel keys = .ok out) :
    ∃ keyed sorted : List (Row × Row), out = ⟨rel.shape, sorted.map Prod.snd⟩
      ∧ fx.sortBy.run (fun a b => keyOrder keys a.1 b.1) keyed = some sorted
      ∧ ∀ kr ∈ keyed, sortKeys fx keys rel.shape kr.2 = .ok kr.1 := by
  obtain ⟨keyed, hkeyed, hout⟩ := Result.bind_eq_ok.1 h
  obtain ⟨sorted, hsorted, hout⟩ := Result.bind_eq_ok.1 hout
  cases hout
  refine ⟨keyed, sorted, rfl, stableSort_eq_ok.1 hsorted, fun kr hkr => ?_⟩
  obtain ⟨row, _, hrow⟩ := Result.mem_of_mapM (ofEval_eq_ok.1 hkeyed) hkr
  obtain ⟨ks, hks, hrow⟩ := Result.bind_eq_ok.1 hrow
  cases hrow
  exact hks

/-- The rows of a sorted relation have keys. -/
theorem sort_keyed {rel out : Relation} (h : sort fx rel keys = .ok out) :
    Keyed fx keys out.shape out.rows := by
  obtain ⟨keyed, sorted, rfl, hsorted, hkey⟩ := sort_eq_ok h
  intro row hrow
  obtain ⟨kr, hkr, rfl⟩ := List.mem_map.1 hrow
  have := hkey kr ((fx.sortBy.perm hsorted).mem_iff.1 hkr)
  rw [keyOf_of_eq_ok this]
  exact this

/-- Rows in strictly ascending key order: sorted by pairwise distinct keys. -/
def Ascends (fx : Intrinsics) (keys : List SortKey) (shape : Shape) (rows : List Row) : Prop :=
  rows.Pairwise (fun a b =>
    keyOrder keys (keyOf fx keys shape a) (keyOf fx keys shape b) = .lt)

/-- The keys of the rows of a sorted relation are distinct and ordered by the sort order. -/
theorem sort_ascends {rel : Relation} {out : Relation} (h : sort fx rel keys = .ok out)
    {P : Row → Prop} (horder : Keyset.OrderOn (keyOrder keys) P)
    (hP : ∀ row ∈ out.rows, P (keyOf fx keys out.shape row))
    (hdist : DistinctKeys fx keys out.shape out.rows) : Ascends fx keys out.shape out.rows := by
  obtain ⟨keyed, sorted, rfl, hsorted, hkey⟩ := sort_eq_ok h
  apply Keyset.pairwise_lt _ hdist
  have hmem : ∀ kr : Row × Row, kr ∈ sorted ↔ kr ∈ keyed :=
    fun kr => (fx.sortBy.perm hsorted).mem_iff
  -- the sort compares the keys stored beside the rows, which are the rows' keys
  have hstored : Keyset.OrderOn (fun a b : Row × Row => keyOrder keys a.1 b.1) (· ∈ keyed) := by
    apply (horder.comap Prod.fst).mono
    intro kr hkr
    have := hP kr.2 (List.mem_map_of_mem ((hmem kr).2 hkr))
    rwa [keyOf_of_eq_ok (hkey kr hkr)] at this
  rw [List.pairwise_map]
  apply (fx.sortBy.ascends hstored hsorted).imp_of_mem
  intro a b ha hb hab
  rw [keyOf_of_eq_ok (hkey a ((hmem a).1 ha)), keyOf_of_eq_ok (hkey b ((hmem b).1 hb))]
  exact hab

/-- Rows sorted by one key ascend if it differs between any two, whatever kinds it mixes: integers
that collide in a float are equal to it. -/
theorem sort_single_ascends {key : SortKey} {rel out : Relation}
    (h : sort fx rel [key] = .ok out) (hdist : DistinctKeys fx [key] out.shape out.rows) :
    Ascends fx [key] out.shape out.rows := by
  let column : Value → Prop := fun v => ∃ row ∈ out.rows, keyOf fx [key] out.shape row = [v]
  have hno : ∀ a b c, column a → column b → column c → ¬ Collide a b c := by
    rintro a b c ⟨ra, hra, hka⟩ ⟨rb, hrb, hkb⟩ _ ⟨x, _, _, rfl, _, rfl, _⟩
    obtain ⟨i, hi, rfl⟩ := List.getElem_of_mem hra
    obtain ⟨j, hj, rfl⟩ := List.getElem_of_mem hrb
    have hpairs := List.pairwise_iff_getElem.1 hdist
    rcases Nat.lt_trichotomy i j with hlt | rfl | hlt
    · apply hpairs i j hi hj hlt
      rw [hka, hkb, keyOrder, (f64Order_ofInt64 x).1]
      cases key.dir <;> rfl
    · rw [hka] at hkb
      cases hkb
    · apply hpairs j i hj hi hlt
      rw [hka, hkb, keyOrder, (f64Order_ofInt64 x).2]
      cases key.dir <;> rfl
  have horder : Keyset.OrderOn (keyOrder [key]) (InColumns [column]) := by
    refine keyOrder_order [key] [column] (fun P hP => ?_)
    rw [List.mem_singleton.1 hP]
    exact valueOrder_order hno
  refine sort_ascends h horder (fun row hrow => ?_) hdist
  obtain ⟨v, hv⟩ := List.length_eq_one_iff.1 (length_of_sortKeys (sort_keyed h row hrow))
  rw [hv]
  exact .cons ⟨row, hrow, hv⟩ .nil

/-- A row whose key fits has a token. -/
theorem exists_encodeResume {row : Row} {payload : Bytes}
    (hkey : sortKeys fx keys shape row = .ok (keyOf fx keys shape row))
    (hfit : Types.encodeRow (keyOf fx keys shape row) = .ok payload) :
    ∃ token, encodeResume fx keys shape row = .ok token := by
  refine ⟨encodeCursorToken payload, ?_⟩
  rw [encodeResume, hkey]
  show (ofTypes (Types.encodeRow _) >>= _) = _
  rw [hfit]
  rfl

/-- A row's token carries its key. -/
theorem decodeResume_encodeResume {row : Row} {token : Bytes}
    (h : encodeResume fx keys shape row = .ok token) :
    decodeResume token = .ok (keyOf fx keys shape row) := by
  obtain ⟨key, hkey, h⟩ := Result.bind_eq_ok.1 h
  obtain ⟨payload, hfit, h⟩ := Result.bind_eq_ok.1 h
  cases h
  rw [keyOf_of_eq_ok (ofEval_eq_ok.1 hkey), decodeResume, decodeCursorToken_encodeCursorToken]
  show (match decodeRow payload with
    | .ok key => (Except.ok key : ExecResult Row)
    | .error _ => .error .badCursor) = _
  rw [decodeRow_encodeRow (ofTypes_eq_ok.1 hfit)]

/-- Rows that all have keys are kept by comparing these. -/
theorem retainAfter_eq_filter {resume : Row} (hlen : resume.length = keys.length)
    {rows : List Row} (hkeyed : Keyed fx keys shape rows) :
    retainAfter fx keys shape resume rows
      = .ok (rows.filter (fun row => keyOrder keys (keyOf fx keys shape row) resume = .gt)) := by
  induction rows with
  | nil => rfl
  | cons row rows ih =>
    have hkey := hkeyed row (by simp)
    have hcmp := keyCmp_eq_keyOrder (length_of_sortKeys hkey) hlen
    have hafter : rowAfter fx keys shape resume row
        = .ok (keyOrder keys (keyOf fx keys shape row) resume == .gt) := by
      rw [rowAfter, hkey]
      show (match keyCmp keys (keyOf fx keys shape row) resume with
        | some ord => (Except.ok (ord == Ordering.gt) : ExecResult Bool)
        | none => .error .panicked) = _
      rw [hcmp]
    rw [retainAfter, hafter, Result.ok_bind, ih (fun r hr => hkeyed r (List.mem_cons_of_mem _ hr)),
      Result.ok_bind, List.filter_cons]
    rfl

end

/-! ## The page at a position -/

section

variable (fx : Intrinsics) (snap : CatSnapshot)

/-- A plan that the reference executor runs and that stays within the default caps. -/
structure RunsWithinCaps (core : Plan) (rel : Relation) : Prop where
  run : execute fx snap core = .ok rel
  cap : WithinCap fx snap ResourceLimits.default.maxRows core
  fits : rel.rows.length ≤ ResourceLimits.default.maxRows
  joins : countJoins core ≤ ResourceLimits.default.maxJoins

/-- A core whose rows can be resumed after any of them: it runs within the caps, it is a sort, and
its rows come in strictly ascending key order. -/
structure Resumable (core : Plan) (keys : List SortKey) (rel : Relation) : Prop
    extends RunsWithinCaps fx snap core rel where
  sorted : ∃ input, core = .sort input keys
  ascends : Ascends fx keys rel.shape rel.rows

/-- A core whose rows can be paged through: it runs within the caps, it is a sort, and its
keys are distinct, of one kind per position and fit a token. -/
structure Paginable (core : Plan) (keys : List SortKey) (rel : Relation) : Prop
    extends RunsWithinCaps fx snap core rel where
  sorted : ∃ input, core = .sort input keys
  kinds : SingleKinded fx keys rel.shape rel.rows
  distinct : DistinctKeys fx keys rel.shape rel.rows
  tokens : TokensFit fx keys rel.shape rel.rows

/-- The token that resumes at a position: none at the start, else that of the row before. -/
def tokenAt (keys : List SortKey) (rel : Relation) : Nat → Option Bytes
  | 0 => none
  | p + 1 => rel.rows[p]?.bind (fun row => (encodeResume fx keys rel.shape row).toOption)

/-- The page of `n` rows that starts at a position. -/
def pageAt (keys : List SortKey) (rel : Relation) (n p : Nat) : Page :=
  ⟨rel.shape, (rel.rows.drop p).take n,
    if p + n < rel.rows.length then tokenAt fx keys rel (p + n) else none⟩

variable {fx snap} {core : Plan} {keys : List SortKey} {rel : Relation}

/-- Distinct keys of one kind per position ascend once they are sorted. -/
theorem Paginable.resumable (h : Paginable fx snap core keys rel) :
    Resumable fx snap core keys rel := by
  refine ⟨h.toRunsWithinCaps, h.sorted, ?_⟩
  obtain ⟨input, rfl⟩ := h.sorted
  obtain ⟨inner, _, hsort⟩ := Result.bind_eq_ok.1 h.run
  obtain ⟨kinds, hkinds⟩ := h.kinds
  exact sort_ascends hsort (keyOrder_kinds keys kinds) hkinds h.distinct

theorem Resumable.keyed (h : Resumable fx snap core keys rel) :
    Keyed fx keys rel.shape rel.rows := by
  obtain ⟨input, rfl⟩ := h.sorted
  obtain ⟨inner, _, hsort⟩ := Result.bind_eq_ok.1 h.run
  exact sort_keyed hsort

theorem Resumable.ordering (h : Resumable fx snap core keys rel) : orderingOf core = some keys := by
  obtain ⟨input, rfl⟩ := h.sorted
  rfl

/-- A position before the end has a token when the keys fit one. -/
theorem Paginable.tokenAt_isSome (h : Paginable fx snap core keys rel) {p : Nat} (hpos : 0 < p)
    (hp : p ≤ rel.rows.length) : ∃ token, tokenAt fx keys rel p = some token := by
  obtain ⟨q, rfl⟩ := Nat.exists_eq_add_one_of_ne_zero (Nat.pos_iff_ne_zero.1 hpos)
  have hmem : rel.rows[q] ∈ rel.rows := List.getElem_mem hp
  obtain ⟨payload, hfit⟩ := h.tokens _ hmem
  obtain ⟨token, htoken⟩ := exists_encodeResume (h.resumable.keyed _ hmem) hfit
  refine ⟨token, ?_⟩
  rw [tokenAt, List.getElem?_eq_getElem hp]
  show (encodeResume fx keys rel.shape rel.rows[q]).toOption = some token
  rw [htoken]
  rfl

/-- The token at a position is that of the row before it. -/
theorem tokenAt_eq_some {p : Nat} {token : Bytes} (hp : p < rel.rows.length)
    (h : tokenAt fx keys rel (p + 1) = some token) :
    encodeResume fx keys rel.shape rel.rows[p] = .ok token := by
  rw [tokenAt, List.getElem?_eq_getElem hp] at h
  exact Result.toOption_eq_some h

/-- Resuming at a position drops the rows before it. -/
theorem resumeRows_at (h : Resumable fx snap core keys rel) {p : Nat} (hp : p ≤ rel.rows.length)
    (htoken : 0 < p → ∃ token, tokenAt fx keys rel p = some token) :
    resumeRows fx (some keys) rel.shape rel.rows (tokenAt fx keys rel p)
      = .ok (rel.rows.drop p) := by
  cases p with
  | zero => rfl
  | succ p =>
    obtain ⟨token, htok⟩ := htoken (Nat.zero_lt_succ p)
    have hlength : ∀ row ∈ rel.rows, (keyOf fx keys rel.shape row).length = keys.length :=
      fun row hrow => length_of_sortKeys (h.keyed row hrow)
    have hlt := h.ascends
    rw [htok, resumeRows, decodeResume_encodeResume (tokenAt_eq_some hp htok), Result.ok_bind]
    show retainAfter fx keys rel.shape _ rel.rows = _
    rw [retainAfter_eq_filter (hlength _ (List.getElem_mem hp)) h.keyed]
    -- the list is the rows before the position, the row whose key the token has, and the rest
    have hsplit : rel.rows = rel.rows.take p ++ rel.rows[p] :: rel.rows.drop (p + 1) := by
      rw [List.getElem_cons_drop, List.take_append_drop]
    rw [Ascends, hsplit] at hlt
    rw [hsplit] at hlength
    have hafter := Keyset.filter_after (P := fun key : Row => key.length = keys.length)
      (fun ha hb => keyOrder_swap ha hb) hlength hlt
    rw [← hsplit] at hafter
    rw [hafter]

/-- The page of a wrapped core is cut from the core's rows. -/
theorem executePage_eq (h : RunsWithinCaps fx snap core rel) {plan : Plan} {w : Wrappers}
    (hpeel : peel plan ⟨none, 0, none⟩ = (core, w)) (hjoins : countJoins plan = countJoins core) :
    executePage fx snap plan = (do
      let rows ← resumeRows fx (orderingOf core) rel.shape rel.rows w.resume
      cut fx (orderingOf core) rel.shape (rows.drop w.offset) w.limit) := by
  have hjoin : checkJoinCount plan ResourceLimits.default = .ok () := by
    have := h.joins
    rw [checkJoinCount, hjoins, if_neg (by omega)]
  rw [executePage, executePageWith, hjoin, Result.ok_bind, hpeel]
  show (build fx snap ResourceLimits.default core >>= _) = _
  rw [build_of_execute rfl h.run h.cap, Result.ok_bind]
  show (collect _ (rel.rows.map Except.ok) >>= _) = _
  rw [collect_rows rfl h.fits, Result.ok_bind]
  rfl

/-- A core that the reference executor runs and whose page is given is within the caps. -/
theorem runsWithinCaps_of_page {plan : Plan} {w : Wrappers} {page : Page}
    (hrun : execute fx snap core = .ok rel) (hpeel : peel plan ⟨none, 0, none⟩ = (core, w))
    (hjoins : countJoins plan = countJoins core) (h : executePage fx snap plan = .ok page) :
    RunsWithinCaps fx snap core rel := by
  rw [executePage, executePageWith, hpeel] at h
  obtain ⟨_, hjoin, h⟩ := Result.bind_eq_ok.1 h
  obtain ⟨node, hbuild, h⟩ := Result.bind_eq_ok.1 h
  obtain ⟨rows, hcollect, _⟩ := Result.bind_eq_ok.1 h
  have hcap := withinCap_of_build rfl hrun hbuild
  cases hbuild.symm.trans (build_of_execute rfl hrun hcap)
  refine ⟨hrun, hcap, le_of_collect hcollect, ?_⟩
  rw [checkJoinCount, hjoins] at hjoin
  split at hjoin
  · cases hjoin
  · omega

/-- The token of a page with rows behind it is the one at the position after it. -/
theorem continuation_at {p n : Nat} (hn : 1 ≤ n) (hmore : p + n < rel.rows.length)
    {cursor : Option Bytes} :
    continuation fx (some keys) rel.shape ((rel.rows.drop p).take n).getLast? = .ok cursor ↔
      cursor = tokenAt fx keys rel (p + n) ∧ ∃ token, cursor = some token := by
  obtain ⟨m, hm⟩ : ∃ m, p + n = m + 1 := ⟨p + n - 1, by omega⟩
  have hlast : ((rel.rows.drop p).take n).getLast? = some rel.rows[m] := by
    rw [List.getLast?_take, if_neg (by omega), List.getElem?_drop]
    have hidx : p + (n - 1) = m := by omega
    rw [hidx, List.getElem?_eq_getElem (by omega)]
    rfl
  rw [hlast, hm, tokenAt, List.getElem?_eq_getElem (by omega), continuation]
  show (encodeResume fx keys rel.shape rel.rows[m] >>= _) = _ ↔
    cursor = (encodeResume fx keys rel.shape rel.rows[m]).toOption ∧ _
  cases encodeResume fx keys rel.shape rel.rows[m] with
  | ok token =>
    constructor
    · intro h
      cases h
      exact ⟨rfl, token, rfl⟩
    · rintro ⟨rfl, _⟩
      rfl
  | error e =>
    constructor
    · intro h
      cases h
    · rintro ⟨rfl, _, h⟩
      cases h

/-- The page of a wrapped core, resumed at a position that has a token. -/
theorem executePage_at (h : Resumable fx snap core keys rel) {plan : Plan} {n o p : Nat}
    (hpeel : peel plan ⟨none, 0, none⟩ = (core, ⟨some n, o, tokenAt fx keys rel p⟩))
    (hjoins : countJoins plan = countJoins core) (hn : 1 ≤ n) (hp : p ≤ rel.rows.length)
    (htoken : 0 < p → ∃ token, tokenAt fx keys rel p = some token) {page : Page} :
    executePage fx snap plan = .ok page ↔ page = pageAt fx keys rel n (p + o) ∧
      (p + o + n < rel.rows.length → ∃ token, tokenAt fx keys rel (p + o + n) = some token) := by
  rw [executePage_eq h.toRunsWithinCaps hpeel hjoins, h.ordering, resumeRows_at h hp htoken,
    Result.ok_bind]
  show cut fx (some keys) rel.shape ((rel.rows.drop p).drop o) (some n) = _ ↔ _
  rw [List.drop_drop, cut, List.length_drop, pageAt]
  by_cases hmore : p + o + n < rel.rows.length
  · rw [if_pos (by omega), if_pos hmore, Result.bind_eq_ok]
    constructor
    · rintro ⟨cursor, hcursor, hpage⟩
      cases hpage
      obtain ⟨rfl, hsome⟩ := (continuation_at hn hmore).1 hcursor
      exact ⟨rfl, fun _ => hsome⟩
    · rintro ⟨rfl, hsome⟩
      exact ⟨_, (continuation_at hn hmore).2 ⟨rfl, hsome hmore⟩, rfl⟩
  · rw [if_neg (by omega), if_neg hmore]
    constructor
    · intro hpage
      cases hpage
      exact ⟨rfl, fun hlt => absurd hlt hmore⟩
    · rintro ⟨rfl, _⟩
      rfl

end

end Edb.Query
