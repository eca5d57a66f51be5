import Edb.Query.Requests

/-!
# Hostile tokens

A token is bytes a client holds. Decoding it ends in a key or a typed error; the comparison of a
row's key with the token's takes an index out of range where the token has fewer values than the
plan has sort keys. Whatever the token is, the core of the plan runs first, and ends in rows or a
typed error as long as its sorts return.

* **When a request does not crash** (`executePage_returns_iff`).
-/

namespace Edb.Query

open Edb.Types Edb.Proto Edb.Catalog Edb.Lib

/-- A computation that ends in a value or a typed error. -/
def Returns {α : Type} (x : ExecResult α) : Prop :=
  Result.Holds (· ≠ ExecError.panicked) (fun _ => True) x

theorem returns_iff {α : Type} {x : ExecResult α} : Returns x ↔ x ≠ .error .panicked := by
  cases x with
  | ok a => exact iff_of_true trivial (fun h => by cases h)
  | error e => exact not_congr (Except.error.injEq e _).symm.to_iff

theorem Returns.bind {α β : Type} {x : ExecResult α} {f : α → ExecResult β} (hx : Returns x)
    (hf : ∀ a, x = .ok a → Returns (f a)) : Returns (x >>= f) := by
  cases x with
  | ok a => exact hf a rfl
  | error e => exact hx

/-- A sequence returns exactly when its parts do, as far as it gets. -/
theorem returns_bind_iff {α β : Type} {x : ExecResult α} {f : α → ExecResult β} :
    Returns (x >>= f) ↔ Returns x ∧ ∀ a, x = .ok a → Returns (f a) := by
  constructor
  · intro h
    cases x with
    | error e => exact ⟨h, fun a ha => by cases ha⟩
    | ok a =>
      refine ⟨trivial, fun b hb => ?_⟩
      cases hb
      exact h
  · rintro ⟨hx, hf⟩
    exact hx.bind hf

theorem returns_ofEval {α : Type} (x : Except EvalError α) : Returns (ofEval x) := by
  cases x with
  | ok a => trivial
  | error e =>
    intro h
    cases h

theorem returns_ofCatalog {α : Type} (x : CatResult α) : Returns (ofCatalog x) := by
  cases x with
  | ok a => trivial
  | error e =>
    intro h
    cases h

theorem returns_ofTypes {α : Type} (x : Except TypeError α) : Returns (ofTypes x) := by
  cases x with
  | ok a => trivial
  | error e =>
    intro h
    cases h

/-! ## The core -/

section

variable {fx : Intrinsics} {snap : CatSnapshot} {limits : ResourceLimits}

/-- Materialising items that are rows or typed errors returns. -/
theorem returns_collectFrom {items : List (ExecResult Row)} (h : ∀ item ∈ items, Returns item) :
    ∀ i, Returns (collectFrom limits i items) := by
  induction items with
  | nil =>
    intro i
    trivial
  | cons item items ih =>
    intro i
    rw [collectFrom]
    refine Result.Holds.ite (fun _ => ?_) (fun _ => ?_)
    · intro he
      cases he
    refine Result.Holds.ite (fun _ => ?_) (fun _ => ?_)
    · intro he
      cases he
    · refine (h item List.mem_cons_self).bind (fun row _ => ?_)
      refine (ih (fun it hit => h it (List.mem_cons_of_mem _ hit)) (i + 1)).bind (fun _ _ => ?_)
      trivial

theorem returns_collect {items : List (ExecResult Row)} (h : ∀ item ∈ items, Returns item) :
    Returns (collect limits items) := returns_collectFrom h 0

theorem returns_drain {node : Node} (h : ∀ item ∈ node.items, Returns item) :
    Returns (drain limits node) := (returns_collect h).bind (fun _ _ => trivial)

/-- An operator that yields rows and typed errors only. -/
def Node.Safe (node : Node) : Prop := ∀ item ∈ node.items, Returns item

theorem safe_fromRelation (rel : Relation) : (fromRelation rel).Safe := by
  intro item hitem
  obtain ⟨row, _, rfl⟩ := List.mem_map.1 hitem
  trivial

/-- A filter over a safe node is safe. -/
theorem safe_filterStream {child : Node} (h : child.Safe) (pred : Expr) :
    (filterStream fx child pred).Safe := by
  intro item hitem
  obtain ⟨inner, hinner, heq⟩ := List.mem_filterMap.1 hitem
  cases inner with
  | error e =>
    cases heq
    exact h _ hinner
  | ok row =>
    rw [filterItem] at heq
    split at heq
    · cases heq
      trivial
    · cases heq
    · cases heq
      intro he
      cases he

theorem safe_projectStream {child : Node} (h : child.Safe) (items : List Projection) :
    (projectStream fx child items).Safe := by
  intro item hitem
  obtain ⟨inner, hinner, rfl⟩ := List.mem_map.1 hitem
  exact (h inner hinner).bind (fun row _ => returns_ofEval _)

theorem returns_keeps (on : Option Expr) (shape : Shape) (row : Row) :
    Returns (keeps fx on shape row) := by
  cases on with
  | none => trivial
  | some pred => exact returns_ofEval _

theorem returns_joinItem {on : Option Expr} {shape : Shape} {combined : Row}
    {item : ExecResult Row} (h : item ∈ joinItem fx on shape combined) : Returns item := by
  have hkeeps : Returns (keeps fx on shape combined) := returns_keeps on shape combined
  rw [joinItem] at h
  split at h
  · rw [List.mem_singleton.1 h]
    trivial
  · cases h
  · rename_i e he
    rw [he] at hkeeps
    rw [List.mem_singleton.1 h]
    exact hkeeps

/-- Whatever a left row is joined with, the items return. -/
theorem returns_joinItems {kind : JoinKind} {on : Option Expr} {shape : Shape} {width : Nat}
    {rightRows : List Row} {left item : ExecResult Row} (hleft : Returns left)
    (h : item ∈ joinItems fx kind on shape width rightRows left) : Returns item := by
  cases left with
  | error e =>
    rw [List.mem_singleton.1 h]
    exact hleft
  | ok lrow =>
    have hout : ∀ item ∈ rightRows.flatMap (fun rrow => joinItem fx on shape (lrow ++ rrow)),
        Returns item := by
      intro item hitem
      obtain ⟨rrow, _, hitem⟩ := List.mem_flatMap.1 hitem
      exact returns_joinItem hitem
    rw [joinItems] at h
    split at h
    · rcases List.mem_append.1 h with h | h
      · exact hout item h
      · rw [List.mem_singleton.1 h]
        trivial
    · exact hout item h

/-- A join of safe nodes is safe, and collecting its right side does not panic. -/
theorem returns_joinStream {kind : JoinKind} {left right : Node} (hleft : left.Safe)
    (hright : right.Safe) (on : Option Expr) :
    Result.Holds (· ≠ ExecError.panicked) Node.Safe (joinStream fx limits kind left right on) := by
  have hrows : Result.Holds (· ≠ ExecError.panicked) (fun _ => True)
    (collect limits right.items) := returns_collect hright
  refine hrows.bind (fun rightRows _ => ?_)
  intro item hitem
  obtain ⟨l, hl, hitem⟩ := List.mem_flatMap.1 hitem
  exact returns_joinItems (hleft l hl) hitem

theorem returns_aggregate (input : Relation) (by_ : List Expr) (aggs : List (String × Expr)) :
    Returns (aggregate fx input by_ aggs) :=
  (returns_ofEval _).bind (fun _ _ => (returns_ofEval _).bind (fun _ _ => trivial))

theorem returns_scan (table : String) (alias_ : Option String)
    (index : Option (String × List Value)) : Returns (scan snap table alias_ index) :=
  (returns_ofCatalog _).bind (fun _ _ => (returns_ofCatalog _).bind (fun _ _ => trivial))

theorem returns_pkLookup (table : String) (alias_ : Option String) (key : List Value) :
    Returns (pkLookup snap table alias_ key) :=
  (returns_ofCatalog _).bind (fun _ _ => (returns_ofCatalog _).bind (fun _ _ => trivial))

/-- The operators of a plan yield rows and typed errors only. -/
theorem build_safe {plan : Plan} :
    ∀ {node : Node}, build fx snap limits plan = .ok node → node.Safe := by
  induction plan with
  | scan table alias_ =>
    intro node h
    obtain ⟨rel, _, h⟩ := Result.bind_eq_ok.1 h
    cases h
    exact safe_fromRelation rel
  | indexScan table alias_ index keyPrefix =>
    intro node h
    obtain ⟨rel, _, h⟩ := Result.bind_eq_ok.1 h
    cases h
    exact safe_fromRelation rel
  | pkLookup table alias_ key =>
    intro node h
    obtain ⟨rel, _, h⟩ := Result.bind_eq_ok.1 h
    cases h
    exact safe_fromRelation rel
  | filter input pred ih =>
    intro node h
    obtain ⟨child, hchild, h⟩ := Result.bind_eq_ok.1 h
    cases h
    exact safe_filterStream (ih hchild) pred
  | project input items ih =>
    intro node h
    obtain ⟨child, hchild, h⟩ := Result.bind_eq_ok.1 h
    cases h
    exact safe_projectStream (ih hchild) items
  | join kind left right on ihl ihr =>
    intro node h
    obtain ⟨l, hl, h⟩ := Result.bind_eq_ok.1 h
    obtain ⟨r, hr, h⟩ := Result.bind_eq_ok.1 h
    -- the join may fail on its right side, and is safe where it does not
    have hjoin : Result.Holds (· ≠ ExecError.panicked) Node.Safe
        (joinStream fx limits kind l r on) := returns_joinStream (ihl hl) (ihr hr) on
    rw [h] at hjoin
    exact hjoin
  | aggregate input by_ aggs ih =>
    intro node h
    obtain ⟨_, _, h⟩ := Result.bind_eq_ok.1 h
    obtain ⟨_, _, h⟩ := Result.bind_eq_ok.1 h
    obtain ⟨out, _, h⟩ := Result.bind_eq_ok.1 h
    cases h
    exact safe_fromRelation out
  | sort input keys ih =>
    intro node h
    obtain ⟨_, _, h⟩ := Result.bind_eq_ok.1 h
    obtain ⟨_, _, h⟩ := Result.bind_eq_ok.1 h
    obtain ⟨out, _, h⟩ := Result.bind_eq_ok.1 h
    cases h
    exact safe_fromRelation out
  | distinct input ih =>
    intro node h
    obtain ⟨_, _, h⟩ := Result.bind_eq_ok.1 h
    obtain ⟨rel, _, h⟩ := Result.bind_eq_ok.1 h
    cases h
    exact safe_fromRelation _
  | limit input limit offset ih =>
    intro node h
    obtain ⟨child, hchild, h⟩ := Result.bind_eq_ok.1 h
    cases h
    intro item hitem
    cases limit with
    | none => exact ih hchild item (List.mem_of_mem_drop hitem)
    | some n => exact ih hchild item (List.mem_of_mem_drop (List.mem_of_mem_take hitem))
  | cursor input token _ =>
    intro node h
    cases h

variable (fx snap) in
/-- Every sort of a plan that is reached returns: its keys are ones the standard sort takes. -/
def SortsReturn : Plan → Prop
  | .scan _ _ => True
  | .indexScan _ _ _ _ => True
  | .pkLookup _ _ _ => True
  | .filter input _ => SortsReturn input
  | .project input _ => SortsReturn input
  | .join _ left right _ => SortsReturn left ∧
    ∀ node, build fx snap ResourceLimits.default left = .ok node → SortsReturn right
  | .aggregate input _ _ => SortsReturn input
  | .sort input keys => SortsReturn input ∧
    ∀ rel, executeStream fx snap input = .ok rel → sort fx rel keys ≠ .error .panicked
  | .distinct input => SortsReturn input
  | .limit input _ _ => SortsReturn input
  | .cursor _ _ => True

/-- Building the operators of a plan returns exactly when its sorts do. -/
theorem returns_build {plan : Plan} :
    Returns (build fx snap ResourceLimits.default plan) ↔ SortsReturn fx snap plan := by
  induction plan with
  | scan table alias_ =>
    exact iff_of_true ((returns_scan table alias_ none).bind (fun _ _ => trivial)) trivial
  | indexScan table alias_ index keyPrefix =>
    exact iff_of_true ((returns_scan table alias_ _).bind (fun _ _ => trivial)) trivial
  | pkLookup table alias_ key =>
    exact iff_of_true ((returns_pkLookup table alias_ key).bind (fun _ _ => trivial)) trivial
  | filter input pred ih =>
    rw [build, returns_bind_iff, ih]
    exact and_iff_left (fun _ _ => trivial)
  | project input items ih =>
    rw [build, returns_bind_iff, ih]
    exact and_iff_left (fun _ _ => trivial)
  | join kind left right on ihl ihr =>
    -- the right side is built, and sorted, only where the left one was built
    rw [build, returns_bind_iff, ihl, SortsReturn]
    refine and_congr_right fun _ => forall₂_congr fun l hl => ?_
    rw [returns_bind_iff, ihr]
    refine and_iff_left fun r hr => ?_
    exact (returns_joinStream (build_safe hl) (build_safe hr) on).mono (fun _ _ => trivial)
  | aggregate input by_ aggs ih =>
    rw [build, returns_bind_iff, ih]
    refine and_iff_left fun child hchild => ?_
    refine (returns_drain (build_safe hchild)).bind (fun rel _ => ?_)
    exact (returns_aggregate rel by_ aggs).bind (fun _ _ => trivial)
  | sort input keys ih =>
    rw [build, returns_bind_iff, ih, SortsReturn]
    refine and_congr_right fun _ => ?_
    constructor
    · intro h rel hrel
      obtain ⟨child, hchild, hrel⟩ := Result.bind_eq_ok.1 hrel
      have hsorted := (returns_bind_iff.1 (h child hchild)).2 rel hrel
      exact returns_iff.1 (returns_bind_iff.1 hsorted).1
    · intro h child hchild
      -- draining a safe child does not panic, so whether the sort does is all that is left
      refine (returns_drain (build_safe hchild)).bind (fun rel hrel => ?_)
      have hsorted := h rel (Result.bind_eq_ok.2 ⟨child, hchild, hrel⟩)
      exact (returns_iff.2 hsorted).bind (fun _ _ => trivial)
  | distinct input ih =>
    rw [build, returns_bind_iff, ih]
    refine and_iff_left fun child hchild => ?_
    exact (returns_drain (build_safe hchild)).bind (fun _ _ => trivial)
  | limit input limit offset ih =>
    rw [build, returns_bind_iff, ih]
    exact and_iff_left (fun _ _ => trivial)
  | cursor input token _ => exact iff_of_true (fun h => by cases h) trivial

theorem returns_executeStream {plan : Plan} :
    Returns (executeStream fx snap plan) ↔ SortsReturn fx snap plan := by
  rw [executeStream, returns_bind_iff, returns_build]
  exact and_iff_left (fun node hnode => returns_drain (build_safe hnode))

end

/-! ## The comparison with the token's key -/

/-- A token's key that runs out while all its values equal the row's: the comparison looks for
the next one. -/
def RunsOut (keys : List SortKey) (key resume : Row) : Prop :=
  resume.length < keys.length ∧
    List.Forall₂ (fun a b => valueOrder a b = .eq) (key.take resume.length) resume

/-- The comparison takes an index out of range exactly when the token's key runs out. -/
theorem keyCmp_eq_none {keys : List SortKey} :
    ∀ {key resume : Row}, key.length = keys.length →
      (keyCmp keys key resume = none ↔ RunsOut keys key resume) := by
  induction keys with
  | nil =>
    intro key resume _
    exact iff_of_false (fun h => by cases h) (fun h => Nat.not_lt_zero _ h.1)
  | cons k keys ih =>
    intro key resume hlen
    obtain ⟨a, as, rfl⟩ := List.exists_cons_of_length_eq_add_one hlen
    cases resume with
    | nil => exact iff_of_true rfl ⟨Nat.zero_lt_succ _, .nil⟩
    | cons b bs =>
      rw [keyCmp]
      have hdir : inDir k.dir (valueOrder a b) = .eq ↔ valueOrder a b = .eq := by
        rw [inDir]
        split
        · cases valueOrder a b <;> decide
        · rfl
      by_cases heq : valueOrder a b = .eq
      · rw [if_neg (not_not_intro (hdir.2 heq)), ih (Nat.succ_injective hlen)]
        constructor
        · rintro ⟨hlt, hall⟩
          exact ⟨Nat.succ_lt_succ hlt, .cons heq hall⟩
        · rintro ⟨hlt, hall⟩
          cases hall with
          | cons _ hall => exact ⟨Nat.lt_of_succ_lt_succ hlt, hall⟩
      · rw [if_pos (fun h => heq (hdir.1 h))]
        refine iff_of_false (fun h => by cases h) ?_
        rintro ⟨_, hall⟩
        cases hall with
        | cons h _ => exact heq h

section

variable {fx : Intrinsics} {snap : CatSnapshot}

/-- A row is compared with the resume row exactly when the keys do not run past its end. -/
theorem returns_rowAfter {keys : List SortKey} {shape : Shape} {resume row : Row} :
    Returns (rowAfter fx keys shape resume row) ↔
      ∀ key, sortKeys fx keys shape row = .ok key → ¬ RunsOut keys key resume := by
  rw [rowAfter]
  cases hkey : sortKeys fx keys shape row with
  | error e => exact iff_of_true trivial (fun key h => by cases h)
  | ok key =>
    have hcmp : keyCmp keys key resume = none ↔ RunsOut keys key resume :=
      keyCmp_eq_none (length_of_sortKeys hkey)
    simp only [Except.ok.injEq, forall_eq']
    rw [← hcmp]
    cases keyCmp keys key resume with
    | none => exact iff_of_false (fun h => h rfl) (fun h => h rfl)
    | some ord => exact iff_of_true trivial (fun h => by cases h)

/-- Positioning a row fails in one way only. -/
theorem rowAfter_eq_error {keys : List SortKey} {shape : Shape} {resume row : Row} {e : ExecError}
    (h : rowAfter fx keys shape resume row = .error e) : e = .panicked := by
  rw [rowAfter] at h
  split at h
  · split at h
    · cases h
    · cases h
      rfl
  · cases h

/-- The rows after the resume row are kept exactly when no comparison runs past its end. -/
theorem returns_retainAfter {keys : List SortKey} {shape : Shape} {resume : Row}
    {rows : List Row} : Returns (retainAfter fx keys shape resume rows) ↔
      ∀ row ∈ rows, ∀ key, sortKeys fx keys shape row = .ok key → ¬ RunsOut keys key resume := by
  induction rows with
  | nil => exact iff_of_true trivial (fun row hrow => by cases hrow)
  | cons row rows ih =>
    rw [List.forall_mem_cons, ← returns_rowAfter, ← ih, retainAfter]
    constructor
    · intro h
      cases hrow : rowAfter fx keys shape resume row with
      | error e =>
        rw [hrow] at h
        exact absurd (rowAfter_eq_error hrow) h
      | ok keep =>
        rw [hrow] at h
        refine ⟨trivial, ?_⟩
        cases hrest : retainAfter fx keys shape resume rows with
        | ok rest => trivial
        | error e =>
          rw [hrest] at h
          exact h
    · rintro ⟨hrow, hrest⟩
      exact hrow.bind (fun keep _ => hrest.bind (fun rest _ => trivial))

/-- Decoding a token returns, whatever its bytes are. -/
theorem returns_decodeResume (token : Bytes) : Returns (decodeResume token) := by
  rw [decodeResume]
  cases decodeCursorToken token with
  | none =>
    intro h
    cases h
  | some payload =>
    dsimp only
    cases decodeRow payload with
    | ok key => trivial
    | error e =>
      intro h
      cases h

/-- Cutting a page and making its token never panic. -/
theorem returns_cut {ordering : Option (List SortKey)} {shape : Shape} {rows : List Row}
    {limit : Option Nat} : Returns (cut fx ordering shape rows limit) := by
  have hnext : ∀ last, Returns (continuation fx ordering shape last) := by
    intro last
    cases ordering with
    | none => trivial
    | some keys =>
      cases last with
      | none => trivial
      | some row =>
        refine Returns.bind ?_ (fun _ _ => trivial)
        exact (returns_ofEval _).bind (fun _ _ => (returns_ofTypes _).bind (fun _ _ => trivial))
  cases limit with
  | none => trivial
  | some n =>
    rw [cut]
    exact Result.Holds.ite (fun _ => (hnext _).bind (fun _ _ => trivial)) (fun _ => trivial)

/-- Resuming panics exactly when a decoded token is too short for the keys it meets. -/
theorem returns_resumeRows {ordering : Option (List SortKey)} {shape : Shape} {rows : List Row}
    {token : Option Bytes} : Returns (resumeRows fx ordering shape rows token) ↔
      ∀ t resume keys, token = some t → decodeResume t = .ok resume → ordering = some keys →
        ∀ row ∈ rows, ∀ key, sortKeys fx keys shape row = .ok key → ¬ RunsOut keys key resume := by
  cases token with
  | none => exact iff_of_true trivial (fun t _ _ h => by cases h)
  | some t =>
    rw [resumeRows]
    have hdecode := returns_decodeResume t
    cases hkey : decodeResume t with
    | error e =>
      rw [hkey] at hdecode
      refine iff_of_true hdecode (fun t' resume _ ht h => ?_)
      cases ht
      rw [hkey] at h
      cases h
    | ok resume =>
      rw [Result.ok_bind]
      cases ordering with
      | none => exact iff_of_true (fun h => by cases h) (fun _ _ _ _ _ h => by cases h)
      | some keys =>
        show Returns (retainAfter fx keys shape resume rows) ↔ _
        rw [returns_retainAfter]
        constructor
        · intro h t' resume' keys' ht hdec hkeys
          cases ht
          cases hkeys
          cases hkey.symm.trans hdec
          exact h
        · intro h
          exact h t resume keys rfl hkey rfl

/-- A page is cut from the rows of the core, resumed. -/
theorem executePage_eq_stream (plan : Plan) :
    executePage fx snap plan = (do
      checkJoinCount plan ResourceLimits.default
      let rel ← executeStream fx snap (peel plan ⟨none, 0, none⟩).1
      let rows ← resumeRows fx (orderingOf (peel plan ⟨none, 0, none⟩).1) rel.shape rel.rows
        (peel plan ⟨none, 0, none⟩).2.resume
      cut fx (orderingOf (peel plan ⟨none, 0, none⟩).1) rel.shape
        (rows.drop (peel plan ⟨none, 0, none⟩).2.offset) (peel plan ⟨none, 0, none⟩).2.limit) := by
  rw [executePage, executePageWith]
  cases checkJoinCount plan ResourceLimits.default with
  | error e => rfl
  | ok _ =>
    generalize peel plan ⟨none, 0, none⟩ = peeled
    obtain ⟨core, w⟩ := peeled
    rw [Result.ok_bind, Result.ok_bind, executeStream]
    show (build fx snap ResourceLimits.default core >>= _) = _
    cases build fx snap ResourceLimits.default core with
    | error e => rfl
    | ok node =>
      rw [Result.ok_bind, Result.ok_bind, drain]
      cases collect ResourceLimits.default node.items <;> rfl

/-- A request returns a page or a typed error exactly when the sorts below its limit return and no
row's key is one that the token's runs out on: there is no token, it does not decode, the core is
not a sort or does not run, or each row of the core differs from the token at one of its values. -/
theorem executePage_returns_iff (fx : Intrinsics) (snap : CatSnapshot) (plan : Plan) :
    executePage fx snap plan ≠ .error .panicked ↔
      (checkJoinCount plan ResourceLimits.default = .ok () →
        SortsReturn fx snap (peel plan ⟨none, 0, none⟩).1) ∧
      ∀ token resume keys rel, (peel plan ⟨none, 0, none⟩).2.resume = some token →
        decodeResume token = .ok resume → orderingOf (peel plan ⟨none, 0, none⟩).1 = some keys →
        checkJoinCount plan ResourceLimits.default = .ok () →
        executeStream fx snap (peel plan ⟨none, 0, none⟩).1 = .ok rel →
        ∀ row ∈ rel.rows, ∀ key, sortKeys fx keys rel.shape row = .ok key →
          ¬ RunsOut keys key resume := by
  rw [← returns_iff, executePage_eq_stream]
  have hjoins : Returns (checkJoinCount plan ResourceLimits.default) :=
    Result.Holds.ite (fun _ h => by cases h) (fun _ => trivial)
  generalize peel plan ⟨none, 0, none⟩ = peeled at *
  obtain ⟨core, limit, offset, token⟩ := peeled
  cases hcheck : checkJoinCount plan ResourceLimits.default with
  | error e =>
    rw [hcheck] at hjoins
    exact iff_of_true hjoins ⟨(fun h => by cases h), fun _ _ _ _ _ _ _ h => by cases h⟩
  | ok _ =>
    rw [Result.ok_bind, returns_bind_iff, returns_executeStream]
    refine and_congr ⟨fun h _ => h, fun h => h rfl⟩ ?_
    constructor
    · intro h t resume keys rel ht hdec hkeys _ hrel
      exact returns_resumeRows.1 (returns_bind_iff.1 (h rel hrel)).1 t resume keys ht hdec hkeys
    · intro h rel hrel
      have hrows := returns_resumeRows.2 fun t resume keys ht hdec hkeys =>
        h t resume keys rel ht hdec hkeys rfl hrel
      exact hrows.bind (fun _ _ => returns_cut)

end

/-- The items in descending order, one a page. -/
def itemsPaged : Select :=
  .pipeline [.scan ⟨"items", none⟩, .sort [⟨.column none "id", .desc⟩], .limit (some 1) 0]

/-- The items sorted by two keys. -/
def itemsByTwoKeys : Select :=
  .pipeline [.scan ⟨"items", none⟩, .sort [⟨.column none "id", .desc⟩, ⟨.column none "id", .asc⟩]]

/-- The token of a request sorted by one key, sent with one sorted by two. -/
theorem foreign_token_panics : ∃ token,
    executeSelect integerIntrinsics itemsSnapshot itemsPaged
        = .ok ⟨["id"], [[.i64 2]], some token, none, none⟩ ∧
      executeSelect integerIntrinsics itemsSnapshot (withCursor itemsByTwoKeys (some token))
        = .error (.exec .panicked) := by
  refine ⟨encodeCursorToken [1, 0, 2, 2, 0, 0, 0, 0, 0, 0, 0], by decide +kernel, ?_⟩
  decide +kernel

end Edb.Query
