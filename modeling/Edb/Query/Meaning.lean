import Edb.Query.Preservation

/-!
# What a plan stands for

The executor evaluates a predicate of every row it meets and fails when one evaluation fails. What
a plan stands for is said without the failures: a filter keeps the rows its predicate is true of, a
join the pairs. An execution that returns has computed this relation (`meaning_of_execute`), and one
whose tables can be read computes it or fails in an evaluation (`execute_computes`).
-/

namespace Edb.Query

open Edb.Lib Edb.Types Edb.Proto Edb.Catalog

/-- A failure of an evaluation, as opposed to one of the storage. -/
def IsEval (err : ExecError) : Prop := ∃ e, err = .eval e

section

variable (fx : Intrinsics)

/-! ## Predicates -/

/-- A predicate is true of a row. -/
def holds (shape : Shape) (pred : Expr) (row : Row) : Bool :=
  decide ((eval fx row shape pred).toOption = some (.bool true))

/-- A predicate has a value of a row. -/
def Decided (shape : Shape) (row : Row) (pred : Expr) : Prop :=
  ∃ v, eval fx row shape pred = .ok v

variable {fx} in
theorem holds_iff {shape : Shape} {pred : Expr} {row : Row} :
    holds fx shape pred row = true ↔ eval fx row shape pred = .ok (.bool true) := by
  rw [holds, decide_eq_true_iff]
  constructor
  · exact Result.toOption_eq_some
  · intro h
    rw [h]
    rfl

variable {fx} in
/-- A predicate returns where it is decided, and says whether it holds. -/
theorem evalPredicate_eq_ok {shape : Shape} {pred : Expr} {row : Row} {b : Bool} :
    evalPredicate fx pred row shape = .ok b ↔
      Decided fx shape row pred ∧ b = holds fx shape pred row := by
  rw [evalPredicate, Result.bind_eq_ok, Decided, holds]
  constructor
  · rintro ⟨v, hv, hb⟩
    cases hb
    refine ⟨⟨v, hv⟩, ?_⟩
    rw [hv]
    exact decide_eq_decide.2 (by simp [Except.toOption])
  · rintro ⟨⟨v, hv⟩, rfl⟩
    refine ⟨v, hv, ?_⟩
    rw [hv]
    exact congrArg Except.ok (decide_eq_decide.2 (by simp [Except.toOption]))

/-- A filter that returns keeps the rows the predicate is true of, and decided all of them. -/
theorem filterRows_eq_ok {pred : Expr} {shape : Shape} {rows out : List Row} :
    filterRows fx pred shape rows = .ok out ↔
      (∀ row ∈ rows, Decided fx shape row pred) ∧ out = rows.filter (holds fx shape pred) := by
  induction rows generalizing out with
  | nil => simp [filterRows, eq_comm]
  | cons row rows ih =>
    rw [filterRows, Result.bind_eq_ok, List.forall_mem_cons, List.filter_cons]
    constructor
    · rintro ⟨keep, hkeep, h⟩
      obtain ⟨rest, hrest, h⟩ := Result.bind_eq_ok.1 h
      cases h
      obtain ⟨hdec, rfl⟩ := evalPredicate_eq_ok.1 (ofEval_eq_ok.1 hkeep)
      obtain ⟨hall, rfl⟩ := ih.1 hrest
      exact ⟨⟨hdec, hall⟩, rfl⟩
    · rintro ⟨⟨hdec, hall⟩, rfl⟩
      exact ⟨_, ofEval_eq_ok.2 (evalPredicate_eq_ok.2 ⟨hdec, rfl⟩),
        Result.bind_eq_ok.2 ⟨_, ih.2 ⟨hall, rfl⟩, rfl⟩⟩

/-! ## Joins -/

/-- A join predicate is true of a combined row. -/
def onHolds (on : Option Expr) (shape : Shape) (row : Row) : Bool :=
  on.all (fun pred => holds fx shape pred row)

/-- A join predicate has a value of a combined row. -/
def OnDecided (on : Option Expr) (shape : Shape) (row : Row) : Prop :=
  ∀ pred ∈ on, Decided fx shape row pred

variable {fx} in
theorem keeps_eq_ok {on : Option Expr} {shape : Shape} {row : Row} {b : Bool} :
    keeps fx on shape row = .ok b ↔ OnDecided fx on shape row ∧ b = onHolds fx on shape row := by
  cases on with
  | none => simp [keeps, OnDecided, onHolds, eq_comm]
  | some pred =>
    rw [keeps, ofEval_eq_ok, evalPredicate_eq_ok]
    simp [OnDecided, onHolds]

/-- The combinations of a left row with the right rows the predicate is true of. -/
def matches_ (on : Option Expr) (shape : Shape) (rrows : List Row) (lrow : Row) : List Row :=
  (rrows.map (lrow ++ ·)).filter (onHolds fx on shape)

/-- A row is joined with the rows that the condition, decided on each, holds of. -/
theorem joinRow_eq_ok {on : Option Expr} {shape : Shape} {lrow : Row} {rrows out : List Row} :
    joinRow fx on shape lrow rrows = .ok out ↔
      (∀ rrow ∈ rrows, OnDecided fx on shape (lrow ++ rrow)) ∧
        out = matches_ fx on shape rrows lrow := by
  induction rrows generalizing out with
  | nil => simp [joinRow, matches_, eq_comm]
  | cons rrow rrows ih =>
    rw [joinRow, Result.bind_eq_ok, List.forall_mem_cons, matches_, List.map_cons,
      List.filter_cons]
    constructor
    · rintro ⟨keep, hkeep, h⟩
      obtain ⟨rest, hrest, h⟩ := Result.bind_eq_ok.1 h
      cases h
      obtain ⟨hdec, rfl⟩ := keeps_eq_ok.1 hkeep
      obtain ⟨hall, rfl⟩ := ih.1 hrest
      exact ⟨⟨hdec, hall⟩, rfl⟩
    · rintro ⟨⟨hdec, hall⟩, rfl⟩
      exact ⟨_, keeps_eq_ok.2 ⟨hdec, rfl⟩, Result.bind_eq_ok.2 ⟨_, ih.2 ⟨hall, rfl⟩, rfl⟩⟩

/-- The rows of a nested loop, left row by left row. -/
def nested (kind : JoinKind) (on : Option Expr) (shape : Shape) (width : Nat)
    (rrows lrows : List Row) : List Row :=
  lrows.flatMap (fun lrow => padUnmatched kind width lrow (matches_ fx on shape rrows lrow))

/-- A join returns the nested loop, where its condition is decided on every pair. -/
theorem joinRows_eq_ok {kind : JoinKind} {on : Option Expr} {shape : Shape} {width : Nat}
    {rrows lrows out : List Row} :
    joinRows fx kind on shape width rrows lrows = .ok out ↔
      (∀ lrow ∈ lrows, ∀ rrow ∈ rrows, OnDecided fx on shape (lrow ++ rrow)) ∧
        out = nested fx kind on shape width rrows lrows := by
  induction lrows generalizing out with
  | nil => simp [joinRows, nested, eq_comm]
  | cons lrow lrows ih =>
    rw [joinRows, Result.bind_eq_ok, List.forall_mem_cons, nested, List.flatMap_cons]
    constructor
    · rintro ⟨joined, hjoined, h⟩
      obtain ⟨rest, hrest, h⟩ := Result.bind_eq_ok.1 h
      cases h
      obtain ⟨hdec, rfl⟩ := (joinRow_eq_ok fx).1 hjoined
      obtain ⟨hall, rfl⟩ := ih.1 hrest
      exact ⟨⟨hdec, hall⟩, rfl⟩
    · rintro ⟨⟨hdec, hall⟩, rfl⟩
      exact ⟨_, (joinRow_eq_ok fx).2 ⟨hdec, rfl⟩,
        Result.bind_eq_ok.2 ⟨_, ih.2 ⟨hall, rfl⟩, rfl⟩⟩

/-! ## Plans -/

/-- The rows of a step, none when it fails. -/
def rowsOf (x : ExecResult Relation) : List Row := x.toOption.elim [] Relation.rows

/-- What a plan stands for over a snapshot. -/
def meaning (snap : CatSnapshot) : Plan → Relation
  | .scan table alias_ => (scan snap table alias_ none).toOption.getD ⟨⟨[]⟩, []⟩
  | .indexScan table alias_ index keyPrefix =>
    (scan snap table alias_ (some (index, keyPrefix))).toOption.getD ⟨⟨[]⟩, []⟩
  | .pkLookup table alias_ key => (pkLookup snap table alias_ key).toOption.getD ⟨⟨[]⟩, []⟩
  | .filter input pred =>
    let rel := meaning snap input
    ⟨rel.shape, rel.rows.filter (holds fx rel.shape pred)⟩
  | .join kind left right on =>
    let l := meaning snap left
    let r := meaning snap right
    let shape := l.shape.concat r.shape
    ⟨shape, nested fx kind on shape r.shape.cols.length r.rows l.rows⟩
  | .aggregate input by_ aggs =>
    let rel := meaning snap input
    ⟨⟨rel.shape.cols ++ aggs.map (fun a => ⟨none, a.1⟩)⟩, rowsOf (aggregate fx rel by_ aggs)⟩
  | .project input items => ⟨projectShape items, rowsOf (project fx (meaning snap input) items)⟩
  | .distinct input => distinct (meaning snap input)
  | .sort input keys =>
    let rel := meaning snap input
    ⟨rel.shape, rowsOf (sort fx rel keys)⟩
  | .limit input limit offset =>
    let rel := meaning snap input
    ⟨rel.shape, applyLimit rel.rows limit offset⟩
  | .cursor input _ => meaning snap input

/-- The tables of a plan can be read along its access paths, its sorts return, and it has no cursor
stage. -/
def Readable (snap : CatSnapshot) : Plan → Prop
  | .scan table alias_ => ∃ rel, scan snap table alias_ none = .ok rel
  | .indexScan table alias_ index keyPrefix =>
    ∃ rel, scan snap table alias_ (some (index, keyPrefix)) = .ok rel
  | .pkLookup table alias_ key => ∃ rel, pkLookup snap table alias_ key = .ok rel
  | .filter input _ => Readable snap input
  | .join _ left right _ => Readable snap left ∧ Readable snap right
  | .aggregate input _ _ => Readable snap input
  | .project input _ => Readable snap input
  | .distinct input => Readable snap input
  | .sort input keys =>
    Readable snap input ∧ sort fx (meaning fx snap input) keys ≠ .error .panicked
  | .limit input _ _ => Readable snap input
  | .cursor _ _ => False

end

variable {fx : Intrinsics} {snap : CatSnapshot}

theorem rowsOf_ok (rel : Relation) : rowsOf (.ok rel) = rel.rows := rfl

theorem aggregate_shape {rel out : Relation} {by_ : List Expr} {aggs : List (String × Expr)}
    (h : aggregate fx rel by_ aggs = .ok out) :
    out.shape = ⟨rel.shape.cols ++ aggs.map (fun a => ⟨none, a.1⟩)⟩ := by
  obtain ⟨groups, -, h⟩ := Result.bind_eq_ok.1 h
  obtain ⟨rows, -, h⟩ := Result.bind_eq_ok.1 h
  cases h
  rfl

theorem project_shape {rel out : Relation} {items : List Projection}
    (h : project fx rel items = .ok out) : out.shape = projectShape items := by
  obtain ⟨rows, -, h⟩ := Result.bind_eq_ok.1 h
  cases h
  rfl

/-- An execution that returns has computed what the plan stands for. -/
theorem meaning_of_execute {plan : Plan} :
    ∀ {rel : Relation}, execute fx snap plan = .ok rel → meaning fx snap plan = rel := by
  induction plan with
  | scan table alias_ =>
    intro rel h
    -- a read is its own meaning
    have h : scan snap table alias_ none = .ok rel := h
    rw [meaning, h]
    rfl
  | indexScan table alias_ index keyPrefix =>
    intro rel h
    have h : scan snap table alias_ (some (index, keyPrefix)) = .ok rel := h
    rw [meaning, h]
    rfl
  | pkLookup table alias_ key =>
    intro rel h
    have h : pkLookup snap table alias_ key = .ok rel := h
    rw [meaning, h]
    rfl
  | filter input pred ih =>
    intro rel h
    obtain ⟨inner, hinner, h⟩ := Result.bind_eq_ok.1 h
    obtain ⟨rows, hrows, h⟩ := Result.bind_eq_ok.1 h
    cases h
    rw [meaning, ih hinner, ((filterRows_eq_ok fx).1 hrows).2]
  | join kind left right on ihl ihr =>
    intro rel h
    obtain ⟨l, hl, h⟩ := Result.bind_eq_ok.1 h
    obtain ⟨r, hr, h⟩ := Result.bind_eq_ok.1 h
    obtain ⟨rows, hrows, h⟩ := Result.bind_eq_ok.1 h
    cases h
    rw [meaning, ihl hl, ihr hr, ((joinRows_eq_ok fx).1 hrows).2]
  | aggregate input by_ aggs ih =>
    intro rel h
    obtain ⟨inner, hinner, h⟩ := Result.bind_eq_ok.1 h
    rw [meaning, ih hinner, h, rowsOf_ok, ← aggregate_shape h]
  | project input items ih =>
    intro rel h
    obtain ⟨inner, hinner, h⟩ := Result.bind_eq_ok.1 h
    rw [meaning, ih hinner, h, rowsOf_ok, ← project_shape h]
  | distinct input ih =>
    intro rel h
    obtain ⟨inner, hinner, h⟩ := Result.bind_eq_ok.1 h
    cases h
    rw [meaning, ih hinner]
  | sort input keys ih =>
    intro rel h
    obtain ⟨inner, hinner, h⟩ := Result.bind_eq_ok.1 h
    rw [meaning, ih hinner, h, rowsOf_ok, ← (mem_sort fx h).1]
  | limit input limit offset ih =>
    intro rel h
    obtain ⟨inner, hinner, h⟩ := Result.bind_eq_ok.1 h
    cases h
    rw [meaning, ih hinner]
  | cursor input token =>
    intro rel h
    cases h

/-- A plan that was executed has been read. -/
theorem readable_of_execute {plan : Plan} :
    ∀ {rel : Relation}, execute fx snap plan = .ok rel → Readable fx snap plan := by
  induction plan with
  | scan table alias_ => exact fun h => ⟨_, h⟩
  | indexScan table alias_ index keyPrefix => exact fun h => ⟨_, h⟩
  | pkLookup table alias_ key => exact fun h => ⟨_, h⟩
  | join kind left right on ihl ihr =>
    intro rel h
    obtain ⟨l, hl, h⟩ := Result.bind_eq_ok.1 h
    obtain ⟨r, hr, h⟩ := Result.bind_eq_ok.1 h
    exact ⟨ihl hl, ihr hr⟩
  | cursor input token =>
    intro rel h
    cases h
  | filter input pred ih =>
    intro rel h
    obtain ⟨inner, hinner, -⟩ := Result.bind_eq_ok.1 h
    exact ih hinner
  | aggregate input by_ aggs ih =>
    intro rel h
    obtain ⟨inner, hinner, -⟩ := Result.bind_eq_ok.1 h
    exact ih hinner
  | project input items ih =>
    intro rel h
    obtain ⟨inner, hinner, -⟩ := Result.bind_eq_ok.1 h
    exact ih hinner
  | distinct input ih =>
    intro rel h
    obtain ⟨inner, hinner, -⟩ := Result.bind_eq_ok.1 h
    exact ih hinner
  | sort input keys ih =>
    intro rel h
    obtain ⟨inner, hinner, hsort⟩ := Result.bind_eq_ok.1 h
    refine ⟨ih hinner, fun hpanics => ?_⟩
    -- the sort returned, so it did not panic on these rows
    rw [meaning_of_execute hinner, hsort] at hpanics
    cases hpanics
  | limit input limit offset ih =>
    intro rel h
    obtain ⟨inner, hinner, -⟩ := Result.bind_eq_ok.1 h
    exact ih hinner

/-! ## Failures -/

/-- The result is the value, or the evaluation of an expression failed. -/
abbrev Computes {α : Type} (a : α) (x : ExecResult α) : Prop := Result.Holds IsEval (· = a) x

theorem ofEval_fails {α : Type} (x : Except EvalError α) :
    Result.Holds IsEval (fun a => x = .ok a) (ofEval x) := by
  cases x with
  | ok a => rfl
  | error e => exact ⟨e, rfl⟩

theorem evalPredicate_fails {shape : Shape} {pred : Expr} {row : Row} :
    Result.Holds IsEval (fun b => b = holds fx shape pred row)
      (ofEval (evalPredicate fx pred row shape)) :=
  (ofEval_fails _).mono (fun _ h => (evalPredicate_eq_ok.1 h).2)

theorem keeps_fails {on : Option Expr} {shape : Shape} {row : Row} :
    Result.Holds IsEval (fun _ => True) (keeps fx on shape row) := by
  cases on with
  | none => trivial
  | some pred => exact (ofEval_fails _).mono (fun _ _ => trivial)

/-- A step that fails in evaluations only computes its rows or fails in one. -/
theorem computes_of_fails {α : Type} {x : ExecResult α} {a : α}
    (hx : Result.Holds IsEval (fun _ => True) x) (h : ∀ b, x = .ok b → b = a) : Computes a x := by
  cases x with
  | ok b => exact h b rfl
  | error e => exact hx

/-- A filter fails in no other way than its predicate. -/
theorem filterRows_fails {pred : Expr} {shape : Shape} {rows : List Row} :
    Result.Holds IsEval (fun _ => True) (filterRows fx pred shape rows) := by
  induction rows with
  | nil => trivial
  | cons row rows ih =>
    apply Result.Holds.bind evalPredicate_fails
    intro keep _
    apply Result.Holds.bind ih
    exact fun _ _ => trivial

theorem joinRow_fails {on : Option Expr} {shape : Shape} {lrow : Row} {rrows : List Row} :
    Result.Holds IsEval (fun _ => True) (joinRow fx on shape lrow rrows) := by
  induction rrows with
  | nil => trivial
  | cons rrow rrows ih =>
    apply Result.Holds.bind keeps_fails
    intro keep _
    apply Result.Holds.bind ih
    exact fun _ _ => trivial

/-- A join fails in no other way than its condition. -/
theorem joinRows_fails {kind : JoinKind} {on : Option Expr} {shape : Shape} {width : Nat}
    {rrows lrows : List Row} :
    Result.Holds IsEval (fun _ => True) (joinRows fx kind on shape width rrows lrows) := by
  induction lrows with
  | nil => trivial
  | cons lrow lrows ih =>
    apply Result.Holds.bind joinRow_fails
    intro joined _
    apply Result.Holds.bind ih
    exact fun _ _ => trivial

theorem aggregate_fails {rel : Relation} {by_ : List Expr} {aggs : List (String × Expr)} :
    Result.Holds IsEval (fun _ => True) (aggregate fx rel by_ aggs) := by
  apply Result.Holds.bind (ofEval_fails _)
  intro groups _
  apply Result.Holds.bind (ofEval_fails _)
  exact fun _ _ => trivial

theorem project_fails {rel : Relation} {items : List Projection} :
    Result.Holds IsEval (fun _ => True) (project fx rel items) := by
  apply Result.Holds.bind (ofEval_fails _)
  exact fun _ _ => trivial

/-- A sort that does not panic fails in no other way than its keys. -/
theorem sort_fails {rel : Relation} {keys : List SortKey}
    (h : sort fx rel keys ≠ .error .panicked) :
    Result.Holds IsEval (fun _ => True) (sort fx rel keys) := by
  rw [sort] at h ⊢
  cases hkeyed : ofEval (rel.rows.mapM fun row => do
      let ks ← sortKeys fx keys rel.shape row
      pure (ks, row)) with
  | error e =>
    have hfails := ofEval_fails (rel.rows.mapM fun row => do
      let ks ← sortKeys fx keys rel.shape row
      pure (ks, row))
    rw [hkeyed] at hfails
    exact hfails
  | ok keyed =>
    rw [hkeyed, Result.ok_bind, stableSort] at h
    rw [Result.ok_bind, stableSort]
    split
    · trivial
    · next hnone =>
      rw [hnone] at h
      exact absurd rfl h

variable (fx) in
/-- **A plan whose tables can be read computes what it stands for**, unless it fails in the
evaluation of an expression. -/
theorem execute_computes {plan : Plan} (h : Readable fx snap plan) :
    Computes (meaning fx snap plan) (execute fx snap plan) := by
  have hreturns : ∀ rel, execute fx snap plan = .ok rel → rel = meaning fx snap plan :=
    fun rel hrel => (meaning_of_execute hrel).symm
  -- `meaning_of_execute` has the rows: what is left is that every failure is an evaluation error
  refine computes_of_fails ?_ hreturns
  clear hreturns
  induction plan with
  | scan table alias_ =>
    obtain ⟨rel, h⟩ := h
    show Result.Holds _ _ (scan snap table alias_ none)
    rw [h]
    trivial
  | indexScan table alias_ index keyPrefix =>
    obtain ⟨rel, h⟩ := h
    show Result.Holds _ _ (scan snap table alias_ (some (index, keyPrefix)))
    rw [h]
    trivial
  | pkLookup table alias_ key =>
    obtain ⟨rel, h⟩ := h
    show Result.Holds _ _ (pkLookup snap table alias_ key)
    rw [h]
    trivial
  | filter input pred ih =>
    apply Result.Holds.bind (ih h)
    intro rel _
    apply Result.Holds.bind filterRows_fails
    exact fun _ _ => trivial
  | join kind left right on ihl ihr =>
    apply Result.Holds.bind (ihl h.1)
    intro l _
    apply Result.Holds.bind (ihr h.2)
    intro r _
    apply Result.Holds.bind joinRows_fails
    exact fun _ _ => trivial
  | aggregate input by_ aggs ih =>
    apply Result.Holds.bind (ih h)
    exact fun _ _ => aggregate_fails
  | project input items ih =>
    apply Result.Holds.bind (ih h)
    exact fun _ _ => project_fails
  | distinct input ih =>
    apply Result.Holds.bind (ih h)
    exact fun _ _ => trivial
  | sort input keys ih =>
    -- the keys are comparable on the meaning of the input, which is what the input returns
    have hinput := ih h.1
    show Result.Holds _ _ (execute fx snap input >>= _)
    cases hexec : execute fx snap input with
    | error e =>
      rw [hexec] at hinput
      exact hinput
    | ok rel =>
      apply sort_fails
      rw [← meaning_of_execute hexec]
      exact h.2
  | limit input limit offset ih =>
    apply Result.Holds.bind (ih h)
    exact fun _ _ => trivial
  | cursor input token => exact h.elim

/-! ## Columns -/

/-- A joined row is a pair of rows, or a left row padded with NULLs. -/
theorem mem_nested {kind : JoinKind} {on : Option Expr} {shape : Shape} {width : Nat}
    {rrows lrows : List Row} {row : Row} (h : row ∈ nested fx kind on shape width rrows lrows) :
    ∃ lrow ∈ lrows, (∃ rrow ∈ rrows, row = lrow ++ rrow) ∨
      (kind = .left ∧ row = lrow ++ List.replicate width .null) := by
  obtain ⟨lrow, hl, hrow⟩ := List.mem_flatMap.1 h
  refine ⟨lrow, hl, ?_⟩
  rw [padUnmatched] at hrow
  split at hrow
  · next hpad => exact .inr ⟨hpad.1, List.mem_singleton.1 hrow⟩
  · obtain ⟨rrow, hr, heq⟩ := List.mem_map.1 (List.mem_filter.1 hrow).1
    exact .inl ⟨rrow, hr, heq.symm⟩

section Fits

variable {cols lcols rcols : Cols} {l r rel : Relation}

/-- The columns of a join. -/
theorem join_columns (kind : JoinKind) (hl : l.Fits lcols) (hr : r.Fits rcols) :
    l.shape.concat r.shape =
      Cols.shape (lcols ++ if kind = .left then rcols.orNull else rcols) := by
  rw [hl.1, hr.1, Cols.shape, Cols.shape, Cols.shape, List.map_append]
  split
  · have hcols := congrArg Shape.cols (shape_orNull rcols)
    rw [Shape.concat, ← show rcols.orNull.map Prod.fst = rcols.map Prod.fst from hcols]
  · rfl

/-- A join has the columns of its two sides, the right ones nullable in an outer join. -/
theorem nested_fits {kind : JoinKind} {on : Option Expr} (hl : l.Fits lcols) (hr : r.Fits rcols) :
    Relation.Fits ⟨l.shape.concat r.shape,
        nested fx kind on (l.shape.concat r.shape) r.shape.cols.length r.rows l.rows⟩
      (lcols ++ if kind = .left then rcols.orNull else rcols) := by
  refine ⟨join_columns kind hl hr, fun row hrow => ?_⟩
  obtain ⟨lrow, hlrow, ⟨rrow, hrrow, rfl⟩ | ⟨hkind, rfl⟩⟩ := mem_nested hrow
  · refine List.rel_append (hl.2 lrow hlrow) ?_
    split
    · exact fits_orNull (hr.2 rrow hrrow)
    · exact hr.2 rrow hrrow
  · refine List.rel_append (hl.2 lrow hlrow) ?_
    rw [if_pos hkind, hr.1, Cols.shape, List.length_map]
    exact nulls_fit rcols

/-- The rows of a step that may fail have the kinds they have when it returns. -/
theorem rowsOf_fits {x : ExecResult Relation} {shape : Shape} (hshape : shape = cols.shape)
    (h : ∀ out, x = .ok out → out.Fits cols) : Relation.Fits ⟨shape, rowsOf x⟩ cols := by
  refine ⟨hshape, ?_⟩
  cases x with
  | ok out => exact (h out rfl).2
  | error e => exact fun row hrow => absurd hrow List.not_mem_nil

theorem aggregate_columns (by_ : List Expr) (aggs : List (String × Expr)) (h : rel.Fits cols) :
    Shape.mk (rel.shape.cols ++ aggs.map (fun a => ⟨none, a.1⟩)) =
      Cols.shape ((if by_ = [] then cols.orNull else cols) ++
        aggs.map (fun a => (⟨none, a.1⟩, kindsAgg cols a.2))) := by
  rw [h.1, Cols.shape, Cols.shape, List.map_append, List.map_map]
  split
  · have hcols := congrArg Shape.cols (shape_orNull cols)
    rw [show cols.orNull.map Prod.fst = cols.map Prod.fst from hcols]
    rfl
  · rfl

variable (fx) in
/-- What a plan stands for has the columns of the plan. -/
theorem meaning_fits {schema : SchemaView} (hsnap : SnapshotFits schema snap) {plan : Plan}
    (h : Readable fx snap plan) : (meaning fx snap plan).Fits (kindsPlan schema plan) := by
  induction plan with
  | scan table alias_ =>
    obtain ⟨rel, h⟩ := h
    rw [meaning, h]
    exact scan_kinds hsnap h
  | indexScan table alias_ index keyPrefix =>
    obtain ⟨rel, h⟩ := h
    rw [meaning, h]
    exact scan_kinds hsnap h
  | pkLookup table alias_ key =>
    obtain ⟨rel, h⟩ := h
    rw [meaning, h]
    exact pkLookup_kinds hsnap h
  | filter input pred ih => exact (ih h).of_mem rfl (fun row hrow => (List.mem_filter.1 hrow).1)
  | join kind left right on ihl ihr => exact nested_fits (ihl h.1) (ihr h.2)
  | aggregate input by_ aggs ih =>
    exact rowsOf_fits (aggregate_columns by_ aggs (ih h))
      (fun out hout => aggregate_kinds fx (ih h) hout)
  | project input items ih =>
    refine rowsOf_fits ?_ (fun out hout => project_kinds fx (ih h) hout)
    rw [kindsPlan, Cols.shape, List.map_map]
    rfl
  | distinct input ih =>
    refine (ih h).of_mem rfl (fun row hrow => ?_)
    exact (mem_dedup hrow).resolve_left List.not_mem_nil
  | sort input keys ih =>
    have hinput := ih h.1
    exact rowsOf_fits hinput.1
      (fun out hout => hinput.of_mem (mem_sort fx hout).1 (mem_sort fx hout).2)
  | limit input limit offset ih => exact (ih h).of_mem rfl (fun row hrow => mem_applyLimit hrow)
  | cursor input token => exact h.elim

end Fits

end Edb.Query
