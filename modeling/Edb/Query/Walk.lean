import Edb.Query.Page
import Edb.Query.Plan

/-!
# Walking a result page by page

A cursor owns its snapshot, plans once and wraps its plan for every fetch: resume after the last
token, then page. The walk delivers the rows of the reference execution, each once and in order
(`cursor_walk_complete`).
-/

namespace Edb.Query

open Edb.Types Edb.Proto Edb.Catalog Edb.Lib

/-- How a select request fails. -/
inductive QueryError where
  | lower (err : LowerError)
  | validate (err : ValidateError)
  | exec (err : ExecError)
  | catalog (err : CatalogError)
  deriving DecidableEq, Repr

/-- A result as it goes on the wire. -/
structure QueryResult where
  columns : List String
  rows : List Row
  cursor : Option Bytes
  applied : Option Bool
  affected : Option Nat
  deriving DecidableEq, Repr

/-- A failure of one stage as a failure of the request. -/
def raise {ε α : Type} (f : ε → QueryError) : Except ε α → Except QueryError α
  | .ok a => .ok a
  | .error e => .error (f e)

@[simp] theorem raise_ok {ε α : Type} (f : ε → QueryError) (a : α) :
    raise f (.ok a) = .ok a := rfl

theorem raise_eq_ok {ε α : Type} {f : ε → QueryError} {x : Except ε α} {a : α} :
    raise f x = .ok a ↔ x = .ok a := by
  cases x <;> simp [raise]

/-- The result of a page. -/
def resultOf (page : Page) : QueryResult :=
  ⟨page.shape.cols.map BoundColumn.name, page.rows, page.cursor, none, none⟩

/-- Validate, lower, plan and run a select request. -/
def executeSelect (fx : Intrinsics) (snap : CatSnapshot) (select : Select) :
    Except QueryError QueryResult := do
  let _ ← raise .validate (validateSelect select (schemaOf snap))
  let logical ← raise .lower (lower select)
  let physical ← raise .catalog (plan logical (schemaOf snap))
  let page ← raise .exec (executePage fx snap physical)
  pure (resultOf page)

/-! ## A cursor over a pinned snapshot -/

/-- How the public interface fails: in the query, or by misuse. -/
inductive DbError where
  | query (err : QueryError)
  | usage (what : String)
  deriving DecidableEq, Repr

/-- A forward-only pager over a pinned snapshot. -/
structure Cursor where
  snap : CatSnapshot
  base : Plan
  pageSize : Nat
  token : Option Bytes
  columns : List String
  done : Bool

def ofQuery {α : Type} : Except QueryError α → Except DbError α
  | .ok a => .ok a
  | .error e => .error (.query e)

namespace Cursor

/-- Validate against the snapshot's schema, then plan once. -/
def open_ (snap : CatSnapshot) (select : Select) (pageSize : Nat) : Except DbError Cursor :=
  if pageSize = 0 then .error (.usage "cursor page size must be at least 1")
  else do
    let _ ← ofQuery (raise .validate (validateSelect select (schemaOf snap)))
    let logical ← ofQuery (raise .lower (lower select))
    let base ← ofQuery (raise .catalog (plan logical (schemaOf snap)))
    let output ← ofQuery (raise .validate (validateSelect select (schemaOf snap)))
    pure ⟨snap, base, pageSize, none, output.map OutputColumn.name, false⟩

/-- Whether every page has been fetched. -/
def isDone (c : Cursor) : Bool := c.done

/-- The plan of the next page: resume, then page. -/
def pagePlan (c : Cursor) : Plan :=
  .limit (c.token.elim c.base (fun token => .cursor c.base token)) (some c.pageSize) 0

/-- The cursor after a page. -/
def advance (c : Cursor) (page : Page) : Cursor :=
  match page.cursor with
  | some token => { c with token := some token }
  | none => { c with done := true }

/-- Fetch the next page; an exhausted walk gives empty pages. -/
def fetch (fx : Intrinsics) (c : Cursor) : Except DbError (QueryResult × Cursor) :=
  if c.done then .ok (⟨c.columns, [], none, none, none⟩, c)
  else do
    let page ← ofQuery (raise .exec (executePage fx c.snap c.pagePlan))
    pure (resultOf page, c.advance page)

end Cursor

/-- Fetching until the cursor is done: the pages in order and the cursor left. -/
inductive Walk (fx : Intrinsics) : Cursor → List QueryResult → Cursor → Prop
  | done {c : Cursor} (h : c.isDone = true) : Walk fx c [] c
  | fetch {c c' final : Cursor} {page : QueryResult} {pages : List QueryResult}
      (h : c.isDone = false) (hf : c.fetch fx = .ok (page, c')) (hw : Walk fx c' pages final) :
      Walk fx c (page :: pages) final

section

variable {fx : Intrinsics} {snap : CatSnapshot} {core : Plan} {keys : List SortKey}
  {rel : Relation}

/-- A cursor that has delivered the rows before a position. -/
structure Cursor.At (fx : Intrinsics) (snap : CatSnapshot) (core : Plan) (keys : List SortKey)
    (rel : Relation) (c : Cursor) (p : Nat) : Prop where
  snap_eq : c.snap = snap
  base_eq : c.base = core
  size_pos : 1 ≤ c.pageSize
  not_done : c.done = false
  token_eq : c.token = tokenAt fx keys rel p
  le : p ≤ rel.rows.length

/-- One fetch at a position. -/
theorem fetch_at (h : Paginable fx snap core keys rel) {c : Cursor} {p : Nat}
    (hc : c.At fx snap core keys rel p) :
    c.fetch fx = .ok (resultOf (pageAt fx keys rel c.pageSize p),
      c.advance (pageAt fx keys rel c.pageSize p)) := by
  have hsize := hc.size_pos
  obtain ⟨input, rfl⟩ := h.sorted
  have hpage : executePage fx c.snap c.pagePlan = .ok (pageAt fx keys rel c.pageSize (p + 0)) := by
    rw [hc.snap_eq]
    refine (executePage_at h.resumable ?_ ?_ hsize hc.le
      (fun hpos => h.tokenAt_isSome hpos hc.le)).2
      ⟨rfl, fun hmore => h.tokenAt_isSome (by omega) hmore.le⟩
    · rw [Cursor.pagePlan, ← hc.token_eq, hc.base_eq]
      cases c.token <;> rfl
    · rw [Cursor.pagePlan, hc.base_eq]
      cases c.token <;> rfl
  rw [Cursor.fetch, hc.not_done, hpage]
  rfl

/-- From any position the walk ends and delivers the rows from there on. -/
theorem walk_from (h : Paginable fx snap core keys rel) {c : Cursor} {p : Nat}
    (hc : c.At fx snap core keys rel p) :
    ∃ pages final, Walk fx c pages final ∧ final.done = true ∧
      pages.flatMap QueryResult.rows = rel.rows.drop p ∧
      ∀ page ∈ pages.dropLast, page.rows.length = c.pageSize := by
  induction hleft : rel.rows.length - p using Nat.strong_induction_on generalizing c p with
  | _ left ih =>
    have hfetch := fetch_at h hc
    have hsize := hc.size_pos
    by_cases hmore : p + c.pageSize < rel.rows.length
    · -- a full page with rows behind it: the walk goes on after it
      obtain ⟨token, htok⟩ := h.tokenAt_isSome (p := p + c.pageSize) (by omega) (by omega)
      have hadv : c.advance (pageAt fx keys rel c.pageSize p) = { c with token := some token } := by
        rw [pageAt, if_pos hmore, htok]
        rfl
      rw [hadv] at hfetch
      have hc' : Cursor.At fx snap core keys rel { c with token := some token }
          (p + c.pageSize) :=
        ⟨hc.snap_eq, hc.base_eq, hc.size_pos, hc.not_done, htok.symm, by omega⟩
      obtain ⟨pages, final, hwalk, hdone, hrows, hfull⟩ := ih _ (by omega) hc' rfl
      refine ⟨_ :: pages, final, .fetch hc.not_done hfetch hwalk, hdone, ?_, ?_⟩
      · rw [List.flatMap_cons, hrows]
        show (rel.rows.drop p).take c.pageSize ++ rel.rows.drop (p + c.pageSize) = _
        rw [← List.drop_drop, List.take_append_drop]
      · intro page hpage
        -- the page is not the last one, since the walk after it is not empty
        cases pages with
        | nil =>
          cases hwalk with
          | done hd => exact absurd hd (by simp [Cursor.isDone, hc.not_done])
        | cons next pages =>
          rw [List.dropLast_cons_cons] at hpage
          rcases List.mem_cons.1 hpage with rfl | hpage
          · show ((rel.rows.drop p).take c.pageSize).length = c.pageSize
            rw [List.length_take, List.length_drop]
            omega
          · exact hfull page hpage
    · have hadv : c.advance (pageAt fx keys rel c.pageSize p) = { c with done := true } := by
        rw [pageAt, if_neg hmore]
        rfl
      rw [hadv] at hfetch
      refine ⟨[_], _, .fetch hc.not_done hfetch (.done rfl), rfl, ?_, ?_⟩
      · rw [List.flatMap_singleton]
        show (rel.rows.drop p).take c.pageSize = rel.rows.drop p
        apply List.take_of_length_le
        rw [List.length_drop]
        omega
      · intro page hpage
        cases hpage

/-- An opened cursor stands at the start. -/
theorem open_eq_ok {select : Select} {pageSize : Nat} {c : Cursor}
    (h : Cursor.open_ snap select pageSize = .ok c) :
    1 ≤ pageSize ∧ ∃ base columns, c = ⟨snap, base, pageSize, none, columns, false⟩ := by
  rw [Cursor.open_] at h
  split at h
  · cases h
  · next hsize =>
    obtain ⟨_, _, h⟩ := Result.bind_eq_ok.1 h
    obtain ⟨logical, _, h⟩ := Result.bind_eq_ok.1 h
    obtain ⟨base, _, h⟩ := Result.bind_eq_ok.1 h
    obtain ⟨output, _, h⟩ := Result.bind_eq_ok.1 h
    cases h
    exact ⟨Nat.one_le_iff_ne_zero.2 hsize, _, _, rfl⟩

/-- The walk of a cursor over a sorted select is complete and free of duplicates: it ends,
its pages put together are the rows of the reference execution, all but the last are full,
and what is fetched after it is empty. -/
theorem cursor_walk_complete (fx : Intrinsics) (snap : CatSnapshot) (select : Select)
    (pageSize : Nat) (cursor : Cursor) (hopen : Cursor.open_ snap select pageSize = .ok cursor)
    (keys : List SortKey) (rel : Relation) (h : Paginable fx snap cursor.base keys rel) :
    ∃ pages final, Walk fx cursor pages final ∧
      pages.flatMap QueryResult.rows = rel.rows ∧
      (∀ page ∈ pages.dropLast, page.rows.length = pageSize) ∧
      final.isDone = true ∧
      final.fetch fx = .ok (⟨final.columns, [], none, none, none⟩, final) := by
  obtain ⟨hsize, base, columns, rfl⟩ := open_eq_ok hopen
  have hat : Cursor.At fx snap base keys rel ⟨snap, base, pageSize, none, columns, false⟩ 0 :=
    ⟨rfl, rfl, hsize, rfl, rfl, Nat.zero_le _⟩
  obtain ⟨pages, final, hwalk, hdone, hrows, hfull⟩ := walk_from h hat
  refine ⟨pages, final, hwalk, hrows, hfull, hdone, ?_⟩
  rw [Cursor.fetch, hdone]
  rfl

end

/-- The items in descending order. -/
def itemsDescending : Select :=
  .pipeline [.scan ⟨"items", none⟩, .sort [⟨.column none "id", .desc⟩]]

/-- The plan of `itemsDescending`, its relation and the cursor opened on it. -/
def itemsDescendingPlan : Plan := .sort (.scan "items" none) [⟨.column none "id", .desc⟩]

def itemsDescendingRel : Relation := ⟨⟨[⟨some "items", "id"⟩]⟩, [[.i64 2], [.i64 1]]⟩

theorem itemsDescending_paginable : Paginable integerIntrinsics itemsSnapshot itemsDescendingPlan
    [⟨.column none "id", .desc⟩] itemsDescendingRel := by
  have hkey2 : keyOf integerIntrinsics [⟨.column none "id", .desc⟩] itemsDescendingRel.shape
      [.i64 2] = [.i64 2] := by decide +kernel
  have hkey1 : keyOf integerIntrinsics [⟨.column none "id", .desc⟩] itemsDescendingRel.shape
      [.i64 1] = [.i64 1] := by decide +kernel
  have hscan : execute integerIntrinsics itemsSnapshot (.scan "items" none)
      = .ok ⟨⟨[⟨some "items", "id"⟩]⟩, [[.i64 1], [.i64 2]]⟩ := by decide +kernel
  refine ⟨⟨by decide +kernel, ⟨trivial, ?_⟩, by decide, by decide⟩, ⟨_, rfl⟩, ?_, ?_, ?_⟩
  · intro rel hrel
    rw [hscan] at hrel
    cases hrel
    decide
  · refine ⟨[.i64], ?_⟩
    intro row hrow
    rcases List.mem_pair.1 hrow with rfl | rfl
    · rw [hkey2]
      exact .cons (.inr rfl) .nil
    · rw [hkey1]
      exact .cons (.inr rfl) .nil
  · rw [DistinctKeys, itemsDescendingRel, List.pairwise_pair]
    rw [itemsDescendingRel] at hkey1 hkey2
    rw [hkey1, hkey2]
    decide +kernel
  · intro row hrow
    rcases List.mem_pair.1 hrow with rfl | rfl
    · rw [hkey2]
      exact ⟨_, rfl⟩
    · rw [hkey1]
      exact ⟨_, rfl⟩

theorem cursor_walk_complete_items : ∃ pages final,
    Walk integerIntrinsics ⟨itemsSnapshot, itemsDescendingPlan, 1, none, ["id"], false⟩ pages
      final ∧
      pages.flatMap QueryResult.rows = [[.i64 2], [.i64 1]] ∧
      (∀ page ∈ pages.dropLast, page.rows.length = 1) ∧
      final.isDone = true ∧
      final.fetch integerIntrinsics = .ok (⟨final.columns, [], none, none, none⟩, final) :=
  cursor_walk_complete integerIntrinsics itemsSnapshot itemsDescending 1 _ rfl _ _
    itemsDescending_paginable

end Edb.Query
