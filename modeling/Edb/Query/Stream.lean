import Edb.Proto.Token
import Edb.Query.Exec
import Edb.Types.Row

/-!
# The pull-based executor

Operators compose as row iterators. An iterator is the sequence of items it would yield, an
item being a row or the error that takes its place; taking a prefix of the sequence is what
stopping early means. Sort, aggregate and distinct buffer their input and reuse the
reference executor's computation.
-/

namespace Edb.Query

open Edb.Types Edb.Proto Edb.Catalog Edb.Lib

/-- Per-query resource caps. A deadline is given by the polls that find it passed. -/
structure ResourceLimits where
  maxRows : Nat
  maxJoins : Nat
  deadline : Option (Nat → Bool)

/-- The default caps, without a deadline. -/
def ResourceLimits.default : ResourceLimits :=
  { maxRows := 10000000, maxJoins := 16, deadline := none }

/-- One page of results, with a continuation token when rows remain after it. -/
structure Page where
  shape : Shape
  rows : List Row
  cursor : Option Bytes
  deriving DecidableEq, Repr

/-- A streaming operator: its shape and the items it yields. -/
structure Node where
  shape : Shape
  items : List (ExecResult Row)

/-- Materialise an operator's rows under the caps. The row count and the position of the
next item are the same number, since every item taken is a row. -/
def collectFrom (limits : ResourceLimits) :
    Nat → List (ExecResult Row) → ExecResult (List Row)
  | _, [] => .ok []
  | i, item :: items =>
    if limits.maxRows ≤ i then
      .error (.resourceLimit ("materialized more than " ++ toString limits.maxRows ++ " rows"))
    else if i % 4096 = 0 ∧ limits.deadline.any (fun passed => passed i) then
      .error (.resourceLimit "execution deadline")
    else do
      let row ← item
      let rows ← collectFrom limits (i + 1) items
      pure (row :: rows)

def collect (limits : ResourceLimits) (items : List (ExecResult Row)) : ExecResult (List Row) :=
  collectFrom limits 0 items

def drain (limits : ResourceLimits) (node : Node) : ExecResult Relation := do
  let rows ← collect limits node.items
  pure ⟨node.shape, rows⟩

def fromRelation (rel : Relation) : Node := ⟨rel.shape, rel.rows.map .ok⟩

section

variable (fx : Intrinsics)

/-- One item through a filter: dropped, kept, or an error. -/
def filterItem (pred : Expr) (shape : Shape) : ExecResult Row → Option (ExecResult Row)
  | .ok row =>
    match evalPredicate fx pred row shape with
    | .ok true => some (.ok row)
    | .ok false => none
    | .error e => some (.error (.eval e))
  | .error e => some (.error e)

def filterStream (child : Node) (pred : Expr) : Node :=
  ⟨child.shape, child.items.filterMap (filterItem fx pred child.shape)⟩

def projectStream (child : Node) (items : List Projection) : Node :=
  ⟨projectShape items, child.items.map (fun item => do
    let row ← item
    ofEval (projectRow fx items child.shape row))⟩

/-- The items one combined row gives: itself, nothing, or an error. -/
def joinItem (on : Option Expr) (shape : Shape) (combined : Row) : List (ExecResult Row) :=
  match keeps fx on shape combined with
  | .ok true => [.ok combined]
  | .ok false => []
  | .error e => [.error e]

/-- Whether an item is a row. -/
def isRow : ExecResult Row → Bool
  | .ok _ => true
  | .error _ => false

/-- The items one left item joins to. -/
def joinItems (kind : JoinKind) (on : Option Expr) (shape : Shape) (rightWidth : Nat)
    (rightRows : List Row) : ExecResult Row → List (ExecResult Row)
  | .error e => [.error e]
  | .ok lrow =>
    let out := rightRows.flatMap (fun rrow => joinItem fx on shape (lrow ++ rrow))
    if kind = .left ∧ !out.any isRow
    then out ++ [.ok (lrow ++ List.replicate rightWidth .null)] else out

def joinStream (limits : ResourceLimits) (kind : JoinKind) (left right : Node)
    (on : Option Expr) : ExecResult Node := do
  let shape := left.shape.concat right.shape
  -- the inner side is scanned once per outer row, so it is buffered
  let rightRows ← collect limits right.items
  pure ⟨shape, left.items.flatMap
    (joinItems fx kind on shape right.shape.cols.length rightRows)⟩

/-- Skip, then stop early. -/
def limitItems (items : List (ExecResult Row)) (limit : Option Nat) (offset : Nat) :
    List (ExecResult Row) :=
  match limit with
  | some n => (items.drop offset).take n
  | none => items.drop offset

variable (snap : CatSnapshot)

/-- Build the operator iterator for a plan. -/
def build (limits : ResourceLimits) : Plan → ExecResult Node
  | .scan table alias_ => do
    let rel ← scan snap table alias_ none
    pure (fromRelation rel)
  | .indexScan table alias_ index keyPrefix => do
    let rel ← scan snap table alias_ (some (index, keyPrefix))
    pure (fromRelation rel)
  | .pkLookup table alias_ key => do
    let rel ← pkLookup snap table alias_ key
    pure (fromRelation rel)
  | .filter input pred => do
    let child ← build limits input
    pure (filterStream fx child pred)
  | .project input items => do
    let child ← build limits input
    pure (projectStream fx child items)
  | .join kind left right on => do
    let left ← build limits left
    let right ← build limits right
    joinStream fx limits kind left right on
  | .aggregate input by_ aggs => do
    let child ← build limits input
    let rel ← drain limits child
    let out ← aggregate fx rel by_ aggs
    pure (fromRelation out)
  | .sort input keys => do
    let child ← build limits input
    let rel ← drain limits child
    let out ← sort fx rel keys
    pure (fromRelation out)
  | .distinct input => do
    let child ← build limits input
    let rel ← drain limits child
    pure (fromRelation (distinct rel))
  | .limit input limit offset => do
    let child ← build limits input
    pure ⟨child.shape, limitItems child.items limit offset⟩
  | .cursor _ _ => .error (.unsupported "a cursor below the plan root")

/-- Execute a plan and materialise every row, without pagination. -/
def executeStream (plan : Plan) : ExecResult Relation := do
  let node ← build fx snap ResourceLimits.default plan
  drain ResourceLimits.default node

/-! ## Agreement with the reference executor -/

variable {fx snap}

/-- Rows within the cap are materialised as they are. -/
theorem collectFrom_rows {limits : ResourceLimits} (hd : limits.deadline = none) (rows : List Row) :
    ∀ i, i + rows.length ≤ limits.maxRows →
      collectFrom limits i (rows.map .ok) = .ok rows := by
  induction rows with
  | nil =>
    intro i _
    rfl
  | cons row rows ih =>
    intro i hlen
    rw [List.length_cons] at hlen
    have hrest := ih (i + 1) (by omega)
    rw [List.map_cons, collectFrom, if_neg (by omega), hd, if_neg (by simp), Result.ok_bind, hrest]
    rfl

theorem collect_rows {limits : ResourceLimits} (hd : limits.deadline = none) {rows : List Row}
    (hlen : rows.length ≤ limits.maxRows) : collect limits (rows.map .ok) = .ok rows :=
  collectFrom_rows hd rows 0 (by omega)

/-- Rows that are materialised are within the cap. -/
theorem le_of_collectFrom {limits : ResourceLimits} {rows : List Row} :
    ∀ {i : Nat} {out : List Row}, collectFrom limits i (rows.map .ok) = .ok out → rows ≠ [] →
      i + rows.length ≤ limits.maxRows := by
  induction rows with
  | nil =>
    intro i out _ hne
    exact absurd rfl hne
  | cons row rows ih =>
    intro i out h _
    rw [List.map_cons, collectFrom] at h
    split at h
    · cases h
    · next hi =>
      split at h
      · cases h
      · obtain ⟨_, _, h⟩ := Result.bind_eq_ok.1 h
        obtain ⟨rest, hrest, _⟩ := Result.bind_eq_ok.1 h
        cases rows with
        | nil =>
          show i + 1 ≤ _
          omega
        | cons row' rows =>
          have hle := ih hrest (List.cons_ne_nil _ _)
          rw [List.length_cons]
          omega

theorem le_of_collect {limits : ResourceLimits} {rows out : List Row}
    (h : collect limits (rows.map .ok) = .ok out) : rows.length ≤ limits.maxRows := by
  cases rows with
  | nil => exact Nat.zero_le _
  | cons row rows =>
    have hle := le_of_collectFrom h (List.cons_ne_nil _ _)
    omega

theorem drain_fromRelation {limits : ResourceLimits} (hd : limits.deadline = none) {rel : Relation}
    (hlen : rel.rows.length ≤ limits.maxRows) : drain limits (fromRelation rel) = .ok rel := by
  rw [drain, fromRelation, collect_rows hd hlen]
  rfl

/-- A filter that fails nowhere drops the same rows item by item. -/
theorem filterMap_filterItem {pred : Expr} {shape : Shape} {rows out : List Row}
    (h : filterRows fx pred shape rows = .ok out) :
    (rows.map .ok).filterMap (filterItem fx pred shape) = out.map .ok := by
  induction rows generalizing out with
  | nil =>
    cases h
    rfl
  | cons row rows ih =>
    obtain ⟨keep, hkeep, h⟩ := Result.bind_eq_ok.1 h
    obtain ⟨rest, hrest, h⟩ := Result.bind_eq_ok.1 h
    cases h
    have hpred := ofEval_eq_ok.1 hkeep
    have hih := ih hrest
    rw [List.map_cons, List.filterMap_cons, filterItem, hpred]
    cases keep with
    | true =>
      show Except.ok row :: (rows.map Except.ok).filterMap _ = _
      rw [hih]
      rfl
    | false => exact hih

/-- A projection that fails nowhere maps the same rows item by item. -/
theorem map_projectRow {items : List Projection} {shape : Shape} {rows out : List Row}
    (h : rows.mapM (projectRow fx items shape) = .ok out) :
    (rows.map Except.ok).map (fun item : ExecResult Row => item >>= fun row =>
      ofEval (projectRow fx items shape row)) = out.map Except.ok := by
  have hall := Result.mapM_eq_ok.1 h
  clear h
  induction hall with
  | nil => rfl
  | cons hrow hrows ih =>
    rw [List.map_cons, List.map_cons, List.map_cons, ih, Result.ok_bind, hrow]
    rfl

/-- The pairs of a left row that the predicate decides without failing. -/
theorem flatMap_joinItem {on : Option Expr} {shape : Shape} {lrow : Row} {rrows out : List Row}
    (h : joinRow fx on shape lrow rrows = .ok out) :
    rrows.flatMap (fun rrow => joinItem fx on shape (lrow ++ rrow)) = out.map .ok := by
  induction rrows generalizing out with
  | nil =>
    cases h
    rfl
  | cons rrow rrows ih =>
    obtain ⟨keep, hkeep, h⟩ := Result.bind_eq_ok.1 h
    obtain ⟨rest, hrest, h⟩ := Result.bind_eq_ok.1 h
    cases h
    rw [List.flatMap_cons, ih hrest, joinItem, hkeep]
    cases keep with
    | true => rfl
    | false => rfl

theorem any_isRow (rows : List Row) : (rows.map Except.ok).any isRow = !rows.isEmpty := by
  cases rows with
  | nil => rfl
  | cons row rows => rfl

/-- The items of one left row are the rows the nested loop gives it. -/
theorem joinItems_ok {kind : JoinKind} {on : Option Expr} {shape : Shape} {width : Nat}
    {lrow : Row} {rrows joined : List Row} (h : joinRow fx on shape lrow rrows = .ok joined) :
    joinItems fx kind on shape width rrows (.ok lrow)
      = (padUnmatched kind width lrow joined).map .ok := by
  rw [joinItems, flatMap_joinItem h, any_isRow, padUnmatched]
  cases joined with
  | nil => by_cases hk : kind = .left <;> simp [hk]
  | cons row rows => simp

/-- A join that fails nowhere yields the same rows item by item. -/
theorem flatMap_joinItems {kind : JoinKind} {on : Option Expr} {shape : Shape} {width : Nat}
    {rrows lrows out : List Row} (h : joinRows fx kind on shape width rrows lrows = .ok out) :
    (lrows.map .ok).flatMap (joinItems fx kind on shape width rrows) = out.map .ok := by
  induction lrows generalizing out with
  | nil =>
    cases h
    rfl
  | cons lrow lrows ih =>
    obtain ⟨joined, hjoined, h⟩ := Result.bind_eq_ok.1 h
    obtain ⟨rest, hrest, h⟩ := Result.bind_eq_ok.1 h
    cases h
    rw [List.map_cons, List.flatMap_cons, ih hrest, joinItems_ok hjoined, List.map_append]

theorem limitItems_map (rows : List Row) (limit : Option Nat) (offset : Nat) :
    limitItems (rows.map .ok) limit offset = (applyLimit rows limit offset).map .ok := by
  cases limit with
  | none => rw [limitItems, applyLimit, List.map_drop]
  | some n => rw [limitItems, applyLimit, List.map_take, List.map_drop]

variable (fx snap) in
/-- The relation a plan yields, when it yields one, has at most `cap` rows. -/
def FitsBuffer (cap : Nat) (plan : Plan) : Prop :=
  ∀ rel, execute fx snap plan = .ok rel → rel.rows.length ≤ cap

variable (fx snap) in
/-- No point below the root that buffers its input (a sort, group, distinct or the inner
side of a join) holds more than `cap` rows. -/
def WithinCap (cap : Nat) : Plan → Prop
  | .scan _ _ => True
  | .indexScan _ _ _ _ => True
  | .pkLookup _ _ _ => True
  | .filter input _ => WithinCap cap input
  | .project input _ => WithinCap cap input
  | .limit input _ _ => WithinCap cap input
  | .cursor input _ => WithinCap cap input
  | .join _ left right _ =>
    WithinCap cap left ∧ WithinCap cap right ∧ FitsBuffer fx snap cap right
  | .aggregate input _ _ => WithinCap cap input ∧ FitsBuffer fx snap cap input
  | .sort input _ => WithinCap cap input ∧ FitsBuffer fx snap cap input
  | .distinct input => WithinCap cap input ∧ FitsBuffer fx snap cap input

/-- A plan the reference executor runs builds an operator that yields the same rows, one
item for each. -/
theorem build_of_execute {limits : ResourceLimits} (hd : limits.deadline = none) {plan : Plan} :
    ∀ {rel : Relation}, execute fx snap plan = .ok rel → WithinCap fx snap limits.maxRows plan →
      build fx snap limits plan = .ok (fromRelation rel) := by
  induction plan with
  | scan table alias_ =>
    intro rel h _
    have h : scan snap table alias_ none = .ok rel := h
    rw [build, h]
    rfl
  | indexScan table alias_ index keyPrefix =>
    intro rel h _
    have h : scan snap table alias_ (some (index, keyPrefix)) = .ok rel := h
    rw [build, h]
    rfl
  | pkLookup table alias_ key =>
    intro rel h _
    have h : pkLookup snap table alias_ key = .ok rel := h
    rw [build, h]
    rfl
  | filter input pred ih =>
    intro rel h hcap
    obtain ⟨inner, hinner, h⟩ := Result.bind_eq_ok.1 h
    obtain ⟨rows, hrows, h⟩ := Result.bind_eq_ok.1 h
    cases h
    -- a lazy node: its stream is the mapped stream of the child
    rw [build, ih hinner hcap, Result.ok_bind, filterStream, fromRelation,
      filterMap_filterItem hrows]
    rfl
  | join kind left right on ihl ihr =>
    intro rel h hcap
    -- only the right side of a join is collected, so only it needs to fit the cap
    obtain ⟨hcl, hcr, hfits⟩ := hcap
    obtain ⟨l, hl, h⟩ := Result.bind_eq_ok.1 h
    obtain ⟨r, hr, h⟩ := Result.bind_eq_ok.1 h
    obtain ⟨rows, hrows, h⟩ := Result.bind_eq_ok.1 h
    cases h
    rw [build, ihl hl hcl, Result.ok_bind, ihr hr hcr, Result.ok_bind, joinStream, fromRelation,
      fromRelation, collect_rows hd (hfits r hr), Result.ok_bind, flatMap_joinItems hrows]
    rfl
  | aggregate input by_ aggs ih =>
    intro rel h hcap
    obtain ⟨inner, hinner, h⟩ := Result.bind_eq_ok.1 h
    -- a blocking node: it drains the child, whose rows fit the cap
    rw [build, ih hinner hcap.1, Result.ok_bind, drain_fromRelation hd (hcap.2 inner hinner),
      Result.ok_bind, h]
    rfl
  | project input items ih =>
    intro rel h hcap
    obtain ⟨inner, hinner, h⟩ := Result.bind_eq_ok.1 h
    obtain ⟨rows, hrows, h⟩ := Result.bind_eq_ok.1 h
    cases h
    rw [build, ih hinner hcap, Result.ok_bind, projectStream, fromRelation,
      map_projectRow (ofEval_eq_ok.1 hrows)]
    rfl
  | distinct input ih =>
    intro rel h hcap
    obtain ⟨inner, hinner, h⟩ := Result.bind_eq_ok.1 h
    cases h
    rw [build, ih hinner hcap.1, Result.ok_bind, drain_fromRelation hd (hcap.2 inner hinner)]
    rfl
  | sort input keys ih =>
    intro rel h hcap
    obtain ⟨inner, hinner, h⟩ := Result.bind_eq_ok.1 h
    rw [build, ih hinner hcap.1, Result.ok_bind, drain_fromRelation hd (hcap.2 inner hinner),
      Result.ok_bind, h]
    rfl
  | limit input limit offset ih =>
    intro rel h hcap
    obtain ⟨inner, hinner, h⟩ := Result.bind_eq_ok.1 h
    cases h
    rw [build, ih hinner hcap, Result.ok_bind, fromRelation, limitItems_map]
    rfl
  | cursor input token =>
    intro rel h _
    cases h

/-- A plan the reference executor runs builds only within the cap. -/
theorem withinCap_of_build {limits : ResourceLimits} (hd : limits.deadline = none) {plan : Plan} :
    ∀ {rel : Relation} {node : Node}, execute fx snap plan = .ok rel →
      build fx snap limits plan = .ok node → WithinCap fx snap limits.maxRows plan := by
  -- the input of a point that buffers is drained, and its items are the rows of the relation
  have hbuffer : ∀ {input : Plan} {rel out : Relation} {node : Node},
      execute fx snap input = .ok rel → build fx snap limits input = .ok node →
      WithinCap fx snap limits.maxRows input → drain limits node = .ok out →
      FitsBuffer fx snap limits.maxRows input := by
    intro input rel out node hexec hbuild hcap hdrain rel' hrel'
    cases hexec.symm.trans hrel'
    cases hbuild.symm.trans (build_of_execute hd hexec hcap)
    obtain ⟨rows, hrows, _⟩ := Result.bind_eq_ok.1 hdrain
    exact le_of_collect hrows
  induction plan with
  | scan table alias_ => exact fun _ _ => trivial
  | indexScan table alias_ index keyPrefix => exact fun _ _ => trivial
  | pkLookup table alias_ key => exact fun _ _ => trivial
  | filter input pred ih =>
    intro rel node h hbuild
    obtain ⟨inner, hinner, _⟩ := Result.bind_eq_ok.1 h
    obtain ⟨child, hchild, _⟩ := Result.bind_eq_ok.1 hbuild
    exact ih hinner hchild
  | join kind left right on ihl ihr =>
    intro rel node h hbuild
    obtain ⟨l, hl, h⟩ := Result.bind_eq_ok.1 h
    obtain ⟨r, hr, _⟩ := Result.bind_eq_ok.1 h
    obtain ⟨lnode, hlnode, hbuild⟩ := Result.bind_eq_ok.1 hbuild
    obtain ⟨rnode, hrnode, hbuild⟩ := Result.bind_eq_ok.1 hbuild
    obtain ⟨rows, hrows, _⟩ := Result.bind_eq_ok.1 hbuild
    have hcap := ihr hr hrnode
    have hdrain : drain limits rnode = .ok ⟨rnode.shape, rows⟩ := by
      rw [drain, hrows]
      rfl
    exact ⟨ihl hl hlnode, hcap, hbuffer hr hrnode hcap hdrain⟩
  | aggregate input by_ aggs ih =>
    intro rel node h hbuild
    obtain ⟨inner, hinner, _⟩ := Result.bind_eq_ok.1 h
    obtain ⟨child, hchild, hbuild⟩ := Result.bind_eq_ok.1 hbuild
    obtain ⟨drained, hdrained, _⟩ := Result.bind_eq_ok.1 hbuild
    exact ⟨ih hinner hchild, hbuffer hinner hchild (ih hinner hchild) hdrained⟩
  | project input items ih =>
    intro rel node h hbuild
    obtain ⟨inner, hinner, _⟩ := Result.bind_eq_ok.1 h
    obtain ⟨child, hchild, _⟩ := Result.bind_eq_ok.1 hbuild
    exact ih hinner hchild
  | distinct input ih =>
    intro rel node h hbuild
    obtain ⟨inner, hinner, _⟩ := Result.bind_eq_ok.1 h
    obtain ⟨child, hchild, hbuild⟩ := Result.bind_eq_ok.1 hbuild
    obtain ⟨drained, hdrained, _⟩ := Result.bind_eq_ok.1 hbuild
    exact ⟨ih hinner hchild, hbuffer hinner hchild (ih hinner hchild) hdrained⟩
  | sort input keys ih =>
    intro rel node h hbuild
    obtain ⟨inner, hinner, _⟩ := Result.bind_eq_ok.1 h
    obtain ⟨child, hchild, hbuild⟩ := Result.bind_eq_ok.1 hbuild
    obtain ⟨drained, hdrained, _⟩ := Result.bind_eq_ok.1 hbuild
    exact ⟨ih hinner hchild, hbuffer hinner hchild (ih hinner hchild) hdrained⟩
  | limit input limit offset ih =>
    intro rel node h hbuild
    obtain ⟨inner, hinner, _⟩ := Result.bind_eq_ok.1 h
    obtain ⟨child, hchild, _⟩ := Result.bind_eq_ok.1 hbuild
    exact ih hinner hchild
  | cursor input token =>
    intro rel node h
    cases h

/-- Whatever the reference executor returns, the streaming executor returns, as long as no
materialisation point exceeds the row cap. -/
theorem executeStream_of_execute (fx : Intrinsics) (snap : CatSnapshot) (plan : Plan)
    (rel : Relation) (h : execute fx snap plan = .ok rel)
    (hcap : WithinCap fx snap ResourceLimits.default.maxRows plan)
    (hlen : rel.rows.length ≤ ResourceLimits.default.maxRows) :
    executeStream fx snap plan = .ok rel := by
  rw [executeStream, build_of_execute rfl h hcap, Result.ok_bind, drain_fromRelation rfl hlen]

end

/-- Intrinsics for plans over integers, which call none of them but the sort. -/
def integerIntrinsics : Intrinsics where
  addF64 a _ := a
  subF64 a _ := a
  mulF64 a _ := a
  divF64 a _ := a
  remF64 a _ := a
  sumF64 _ := ⟨0⟩
  parseF64 _ := none
  displayF64 _ := ""
  toLowercase s := s
  sortBy := .insertion

/-- A table of two rows, `1` and `2`, in its one column. -/
def itemsSnapshot : CatSnapshot :=
  ⟨[("items",
    { def_ := ⟨"items", [ColumnDef.new "id" .i64], ["id"], [], [], []⟩
      data := [([3, 128, 0, 0, 0, 0, 0, 0, 1], [1, 0, 2, 1, 0, 0, 0, 0, 0, 0, 0]),
        ([3, 128, 0, 0, 0, 0, 0, 0, 2], [1, 0, 2, 2, 0, 0, 0, 0, 0, 0, 0])]
      indexes := [] })]⟩

/-- The first pair of an item with a greater one. -/
def itemsPlan : Plan :=
  .limit (.join .inner (.scan "items" (some "a")) (.distinct (.scan "items" (some "b")))
    (some (.cmp .lt (.column (some "a") "id") (.column (some "b") "id")))) (some 1) 0

theorem executeStream_of_execute_items :
    executeStream integerIntrinsics itemsSnapshot itemsPlan
      = .ok ⟨⟨[⟨some "a", "id"⟩, ⟨some "b", "id"⟩]⟩, [[.i64 1, .i64 2]]⟩ := by
  have hright : execute integerIntrinsics itemsSnapshot (.distinct (.scan "items" (some "b")))
      = .ok ⟨⟨[⟨some "b", "id"⟩]⟩, [[.i64 1], [.i64 2]]⟩ := by decide +kernel
  have hscan : execute integerIntrinsics itemsSnapshot (.scan "items" (some "b"))
      = .ok ⟨⟨[⟨some "b", "id"⟩]⟩, [[.i64 1], [.i64 2]]⟩ := by decide +kernel
  refine executeStream_of_execute _ _ _ _ (by decide +kernel) ?_ (by decide)
  refine ⟨trivial, ⟨trivial, ?_⟩, ?_⟩
  · intro rel h
    rw [hscan] at h
    cases h
    decide
  · intro rel h
    rw [hright] at h
    cases h
    decide

end Edb.Query
