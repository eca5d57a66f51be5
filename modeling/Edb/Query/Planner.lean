import Edb.Query.Access
import Edb.Query.Guard
import Edb.Query.Stream

/-!
# The planner preserves meaning

Every rewrite of the planner is one of plans that stand for the same relation: index selection over
a table (`accessPath_serves`), and moving conjuncts to the sides of an inner or cross join. A filter
that moves below a join is evaluated of rows the plan before never paired, so a planned join may
fail in an evaluation where the reference returns; without a join the planned execution returns
whenever the reference does (`planned_preserves`).
-/

namespace Edb.Query

open Edb.Lib Edb.Types Edb.Proto Edb.Catalog

/-- Every table of a snapshot can be read by its indexes. -/
def SnapshotServed (snap : CatSnapshot) : Prop :=
  ∀ table image, snap.image table = .ok image → image.Served

/-! ## Filters over a nested loop -/

/-- A filter over a nested loop that splits into one for each side and one for the pairs. -/
theorem filter_nested {α β γ : Type} {ls : List α} {rs : List β} {f : α → β → γ}
    {on p k : γ → Bool} {q : α → Bool} {r : β → Bool}
    (h : ∀ a ∈ ls, ∀ b ∈ rs, p (f a b) = (q a && r b && k (f a b))) :
    (ls.flatMap (fun a => (rs.map (f a)).filter on)).filter p =
      ((ls.filter q).flatMap (fun a => ((rs.filter r).map (f a)).filter on)).filter k := by
  induction ls with
  | nil => rfl
  | cons a ls ih =>
    obtain ⟨ha, hls⟩ := List.forall_mem_cons.1 h
    have hfirst : ((rs.map (f a)).filter on).filter p =
        if q a then (((rs.filter r).map (f a)).filter on).filter k else [] := by
      split
      · next hq =>
        rw [List.filter_map, List.filter_map, List.filter_map, List.filter_map, List.filter_filter,
          List.filter_filter, List.filter_filter]
        refine congrArg _ (List.filter_congr (fun b hb => ?_))
        rw [Function.comp_apply, Function.comp_apply, Function.comp_apply, ha b hb, hq,
          Bool.true_and]
        cases r b <;> cases on (f a b) <;> cases k (f a b) <;> rfl
      · next hq =>
        rw [List.filter_eq_nil_iff]
        intro c hc
        obtain ⟨b, hb, rfl⟩ := List.mem_map.1 (List.mem_filter.1 hc).1
        rw [ha b hb, eq_false_of_ne_true hq]
        exact Bool.false_ne_true
    rw [List.flatMap_cons, List.filter_append, hfirst, ih hls, List.filter_cons]
    split
    · rw [List.flatMap_cons, List.filter_append]
    · rfl

theorem all_partition {α : Type} (p : α → Bool) (f : α → Bool) (l : List α) :
    l.all f = ((l.filter p).all f && (l.filter (fun a => !p a)).all f) := by
  induction l with
  | nil => rfl
  | cons a l ih =>
    rw [List.all_cons, ih, List.filter_cons, List.filter_cons]
    cases p a with
    | true => exact (Bool.and_assoc _ _ _).symm
    | false => exact Bool.and_left_comm _ _ _

section

variable {fx : Intrinsics} {snap : CatSnapshot}

/-! ## Columns of a plan -/

section Columns

variable (hs : SnapshotServed snap)

theorem schemaOf_image {table : String} {image : TableImage} (hi : snap.image table = .ok image) :
    schemaOf snap table = .ok (some image.def_) := by
  rw [schemaOf, snapshot_table hi]

theorem scan_shape {table : String} {alias_ : Option String}
    {index : Option (String × List Value)} {rel : Relation}
    (h : scan snap table alias_ index = .ok rel) : ∃ image, snap.image table = .ok image ∧
      rel.shape = tableShape image.def_ (alias_.getD table) := by
  obtain ⟨def_, hdef, h⟩ := Result.bind_eq_ok.1 h
  obtain ⟨rows, -, h⟩ := Result.bind_eq_ok.1 h
  cases h
  rw [ofCatalog_eq_ok, CatSnapshot.table] at hdef
  obtain ⟨image, hi, hdef⟩ := Result.bind_eq_ok.1 hdef
  cases hdef
  exact ⟨image, hi, rfl⟩

theorem pkLookup_shape {table : String} {alias_ : Option String} {key : List Value}
    {rel : Relation} (h : pkLookup snap table alias_ key = .ok rel) :
    ∃ image, snap.image table = .ok image ∧
      rel.shape = tableShape image.def_ (alias_.getD table) := by
  obtain ⟨def_, hdef, h⟩ := Result.bind_eq_ok.1 h
  obtain ⟨row, -, h⟩ := Result.bind_eq_ok.1 h
  cases h
  rw [ofCatalog_eq_ok, CatSnapshot.table] at hdef
  obtain ⟨image, hi, hdef⟩ := Result.bind_eq_ok.1 hdef
  cases hdef
  exact ⟨image, hi, rfl⟩

variable (fx) in
/-- The planner knows the columns of what a plan stands for. -/
theorem exposed_eq {plan : Plan} (h : Readable fx snap plan) :
    exposed (schemaOf snap) plan = .ok (meaning fx snap plan).shape.cols := by
  -- an access shows the columns of its table under the alias
  have hleaf : ∀ (table : String) (alias_ : Option String) (rel : Relation) (image : TableImage),
      snap.image table = .ok image → rel.shape = tableShape image.def_ (alias_.getD table) →
      (tableDef (schemaOf snap) table >>= fun def_ =>
        pure (tableShape def_ (alias_.getD table)).cols) = .ok rel.shape.cols := by
    intro table alias_ rel image hi hshape
    rw [tableDef, schemaOf_image hi, hshape]
    rfl
  induction plan with
  | scan table alias_ =>
    obtain ⟨rel, h⟩ := h
    obtain ⟨image, hi, hshape⟩ := scan_shape h
    rw [meaning, h]
    exact hleaf table alias_ rel image hi hshape
  | indexScan table alias_ index keyPrefix =>
    obtain ⟨rel, h⟩ := h
    obtain ⟨image, hi, hshape⟩ := scan_shape h
    rw [meaning, h]
    exact hleaf table alias_ rel image hi hshape
  | pkLookup table alias_ key =>
    obtain ⟨rel, h⟩ := h
    obtain ⟨image, hi, hshape⟩ := pkLookup_shape h
    rw [meaning, h]
    exact hleaf table alias_ rel image hi hshape
  | filter input pred ih => exact ih h
  | join kind left right on ihl ihr =>
    rw [exposed, ihl h.1, ihr h.2]
    rfl
  | aggregate input by_ aggs ih =>
    rw [exposed, ih h]
    rfl
  | project input items ih => rfl
  | distinct input ih => exact ih h
  | sort input keys ih => exact ih h.1
  | limit input limit offset ih => exact ih h
  | cursor input token => exact h.elim

include hs

/-- Valid rows are of the kinds their definition declares. -/
theorem served_fits : SnapshotFits (schemaOf snap) snap := by
  intro table image hi
  refine ⟨schemaOf_image hi, fun e he row hdec => ?_⟩
  obtain ⟨row', hdec', hvalid⟩ := (hs table image hi).valid e he
  cases hdec.symm.trans hdec'
  rw [List.forall₂_iff_get]
  refine ⟨by rw [List.length_zipIdx, hvalid.length], fun i hcol hrow => ?_⟩
  rw [List.length_zipIdx] at hcol
  have hget : image.def_.columns.zipIdx.get ⟨i, by rwa [List.length_zipIdx]⟩ =
      (image.def_.columns[i], i) := by
    simp
  rw [hget]
  constructor
  · intro hnull
    have hv : row[i]? = some .null := by
      rw [List.getElem?_eq_getElem hrow]
      cases hcell : row[i] with
      | null => rfl
      | _ =>
        rw [show row.get ⟨i, hrow⟩ = row[i] from rfl, hcell] at hnull
        cases hnull
    exact hvalid.notNull i hv
  · intro k hk
    rcases hvalid.cells i image.def_.columns[i] row[i] (List.getElem?_eq_getElem hcol)
      (List.getElem?_eq_getElem hrow) with hnull | hcell
    · rw [show row.get ⟨i, hrow⟩ = row[i] from rfl, hnull] at hk
      cases hk
    · exact Option.some.inj (hk.symm.trans hcell.1)

/-- The rows of what a plan stands for have its columns. -/
theorem meaning_width {plan : Plan} (h : Readable fx snap plan) :
    ∀ row ∈ (meaning fx snap plan).rows, row.length = (meaning fx snap plan).shape.cols.length := by
  have hfits := meaning_fits fx (served_fits hs) h
  intro row hrow
  rw [hfits.1, Cols.shape, List.length_map]
  exact (hfits.2 row hrow).length_eq.symm

end Columns

/-! ## Filters over a plan -/

/-- What placing a filter over a plan relies on. An access path for it finds every row; what is
pushed to the right side of a join refers to nothing the left side has. -/
def pinsOver (snap : CatSnapshot) : Plan → Expr → Bool
  | .scan table alias_, pred =>
    (snap.image table).toOption.all (fun image => answers image (alias_.getD table) pred)
  | .join kind left right _, pred =>
    if kind = .left then true
    else
      match exposed (schemaOf snap) left, exposed (schemaOf snap) right with
      | .ok leftCols, .ok rightCols =>
        let toLeft := (flattenAnd pred).filter (refersOnlyTo leftCols)
        let rest := (flattenAnd pred).filter (fun c => !refersOnlyTo leftCols c)
        let toRight := rest.filter (refersOnlyTo rightCols)
        pinsOver snap left (andOf toLeft) && pinsOver snap right (andOf toRight) &&
          toRight.all (fun c => (columnRefs c).all (fun ref => !resolvable leftCols ref))
      | _, _ => true
  | _, _ => true

/-- What the planner relies on, at every filter of a plan. -/
def planFits (snap : CatSnapshot) : Plan → Bool
  | .filter input pred => planFits snap input &&
      (optimize (schemaOf snap) input).toOption.all (fun input => pinsOver snap input pred)
  | .join _ left right _ => planFits snap left && planFits snap right
  | .aggregate input _ _ => planFits snap input
  | .project input _ => planFits snap input
  | .distinct input => planFits snap input
  | .sort input _ => planFits snap input
  | .limit input _ _ => planFits snap input
  | .cursor input _ => planFits snap input
  | _ => true

/-- A plan stands for what a filter over another does, and its tables can be read. -/
structure Filters (fx : Intrinsics) (snap : CatSnapshot) (input : Plan) (keep : Row → Bool)
    (out : Plan) : Prop where
  readable : Readable fx snap out
  means : meaning fx snap out =
    ⟨(meaning fx snap input).shape, (meaning fx snap input).rows.filter keep⟩

/-- Conjuncts pushed to one side filter that side. -/
theorem filters_side {place : Expr → CatResult Plan} {side out : Plan} {conjuncts : List Expr}
    (hread : Readable fx snap side) (h : pushSide place side conjuncts = .ok out)
    (hplace : place (andOf conjuncts) = .ok out → Filters fx snap side
      (holds fx (meaning fx snap side).shape (andOf conjuncts)) out) :
    Filters fx snap side (allHold fx (meaning fx snap side).shape conjuncts) out := by
  rw [pushSide] at h
  split at h
  · next hnil =>
    cases h
    rw [List.isEmpty_iff.1 hnil]
    refine ⟨hread, ?_⟩
    show _ = Relation.mk _ (List.filter (fun _ => true) _)
    rw [List.filter_true]
  · obtain ⟨hout, hmeans⟩ := hplace h
    refine ⟨hout, hmeans.trans ?_⟩
    exact congrArg _ (List.filter_congr (fun row _ => holds_andOf conjuncts))

section Pushdown

variable {left right : Shape} {lrow rrow : Row} {conjuncts : List Expr}

/-- Conjuncts of the left side say of a combined row what they say of its left row. -/
theorem allHold_left (hlen : lrow.length = left.cols.length)
    (h : ∀ c ∈ conjuncts, refersOnlyTo left.cols c = true) (right : Shape) (rrow : Row) :
    allHold fx (left.concat right) conjuncts (lrow ++ rrow) = allHold fx left conjuncts lrow := by
  rw [Bool.eq_iff_iff, List.all_eq_true, List.all_eq_true]
  refine forall₂_congr (fun c hc => ?_)
  have hrefs := List.all_eq_true.1 (h c hc)
  rw [holds, holds, eval_congr c (fun ref href => readAlike_left hlen (hrefs ref href) rrow)]

/-- Conjuncts that refer to nothing of the left side say what they say of the right row. -/
theorem allHold_right (hlen : lrow.length = left.cols.length)
    (h : ∀ c ∈ conjuncts, ∀ ref ∈ columnRefs c, resolvable left.cols ref = false) (right : Shape)
    (rrow : Row) :
    allHold fx (left.concat right) conjuncts (lrow ++ rrow) = allHold fx right conjuncts rrow := by
  rw [Bool.eq_iff_iff, List.all_eq_true, List.all_eq_true]
  refine forall₂_congr (fun c hc => ?_)
  rw [holds, holds, eval_congr c (fun ref href => readAlike_right hlen (h c hc ref href) rrow)]

end Pushdown

section Sides

variable (hs : SnapshotServed snap) {kind : JoinKind} (hkind : kind ≠ .left)
  {left right newLeft newRight : Plan} {on : Option Expr} {toLeft toRight : List Expr}
  (hl : Readable fx snap left)
  (hleft : ∀ c ∈ toLeft, refersOnlyTo (meaning fx snap left).shape.cols c = true)
  (hright : ∀ c ∈ toRight, ∀ ref ∈ columnRefs c,
    resolvable (meaning fx snap left).shape.cols ref = false)
  (hnewLeft : Filters fx snap left (allHold fx (meaning fx snap left).shape toLeft) newLeft)
  (hnewRight : Filters fx snap right (allHold fx (meaning fx snap right).shape toRight) newRight)

include hs hkind hl hleft hright hnewLeft hnewRight

variable (on) in
/-- A join of filtered sides has the pairs that meet both filters. -/
theorem filters_sides : Filters fx snap (.join kind left right on)
    (fun row => allHold fx (meaning fx snap (.join kind left right on)).shape toLeft row &&
      allHold fx (meaning fx snap (.join kind left right on)).shape toRight row)
    (.join kind newLeft newRight on) := by
  refine ⟨⟨hnewLeft.readable, hnewRight.readable⟩, ?_⟩
  have hpad : ∀ width lrow joined, padUnmatched kind width lrow joined = joined :=
    fun width lrow joined => if_neg (fun h => hkind h.1)
  rw [meaning, meaning, hnewLeft.means, hnewRight.means]
  refine congrArg (Relation.mk _) ?_
  simp only [nested, hpad, matches_]
  refine ((filter_nested (k := fun _ => true) (fun lrow hlrow rrow _ => ?_)).trans
    (List.filter_true _)).symm
  have hlen := meaning_width hs hl lrow hlrow
  rw [allHold_left hlen hleft, allHold_right hlen hright, Bool.and_true]

/-- **Pushing conjuncts to the sides of a join preserves meaning.** -/
theorem filters_join {pred : Expr} {keep : List Expr}
    (hsplit : ∀ shape row, allHold fx shape (flattenAnd pred) row =
      (allHold fx shape toLeft row &&
        (allHold fx shape toRight row && allHold fx shape keep row))) :
    Filters fx snap (.join kind left right on)
      (holds fx (meaning fx snap (.join kind left right on)).shape pred)
      (wrapFilter (.join kind newLeft newRight on) keep) := by
  obtain ⟨hread, hmeans⟩ := filters_sides hs hkind on hl hleft hright hnewLeft hnewRight
  refine ⟨readable_wrapFilter.2 hread, ?_⟩
  rw [meaning_wrapFilter, hmeans, List.filter_filter]
  refine congrArg (Relation.mk _) (List.filter_congr (fun row _ => ?_))
  rw [holds_flattenAnd, hsplit, Bool.and_comm, Bool.and_assoc]

end Sides

variable (fx) in
/-- **Placing a filter preserves meaning.** -/
theorem buildFilter_filters (hs : SnapshotServed snap) {input out : Plan} {pred : Expr}
    (hread : Readable fx snap input) (hpins : pinsOver snap input pred = true)
    (h : buildFilter (schemaOf snap) input pred = .ok out) :
    Filters fx snap input (holds fx (meaning fx snap input).shape pred) out := by
  -- wherever the filter stays, it filters
  have hplain : ∀ {input : Plan} {pred : Expr} {out : Plan}, Readable fx snap input →
      (Except.ok (Plan.filter input pred) : CatResult Plan) = .ok out →
        Filters fx snap input (holds fx (meaning fx snap input).shape pred) out := by
    intro input pred out hread h
    cases h
    exact ⟨hread, rfl⟩
  induction input generalizing pred out with
  | scan table alias_ =>
    obtain ⟨rel, hrel⟩ := hread
    -- over a scan the filter may become a lookup or an index scan
    obtain ⟨image, hi, -⟩ := scan_shape hrel
    have hscan := scan_eq hi (hs table image hi) alias_
    rw [pinsOver, hi] at hpins
    have hserves := accessPath_serves fx hi (hs table image hi) hpins
    rw [buildFilter, indexSelect, tableDef, schemaOf_image hi] at h
    cases h
    have hmeaning : meaning fx snap (.scan table alias_) =
        ⟨tableShape image.def_ (alias_.getD table), image.data.map image.rowAt⟩ :=
      meaning_of_execute (show execute fx snap (.scan table alias_) = _ from hscan)
    rw [hmeaning]
    refine ⟨hserves.readable, ?_⟩
    rw [hmeaning]
    exact hserves.means
  | join kind left right on ihl ihr =>
    rw [buildFilter] at h
    rw [pinsOver] at hpins
    split at h
    · exact hplain hread h
    · next hkind =>
      obtain ⟨hl, hr⟩ := hread
      rw [if_neg hkind, exposed_eq fx hl, exposed_eq fx hr] at hpins
      rw [exposed_eq fx hl, exposed_eq fx hr, Result.ok_bind, Result.ok_bind] at h
      -- an inner or cross join: each conjunct goes to the side that has its columns
      simp only [Bool.and_eq_true] at hpins
      obtain ⟨⟨hpl, hpr⟩, hrefs⟩ := hpins
      obtain ⟨newLeft, hnewLeft, h⟩ := Result.bind_eq_ok.1 h
      obtain ⟨newRight, hnewRight, h⟩ := Result.bind_eq_ok.1 h
      cases h
      -- the conjuncts for the left, those for the right, and the rest
      refine filters_join hs hkind hl (fun c hc => (List.mem_filter.1 hc).2)
        (fun c hc ref href => ?_) (filters_side hl hnewLeft (fun h => ihl hl hpl h))
        (filters_side hr hnewRight (fun h => ihr hr hpr h)) (fun shape row => ?_)
      · have hc := List.all_eq_true.1 (List.all_eq_true.1 hrefs c hc) ref href
        simpa using hc
      · rw [allHold, all_partition (refersOnlyTo (meaning fx snap left).shape.cols)]
        exact congrArg _ (all_partition _ _ _)
  | _ => exact hplain hread h

/-- A filter over a readable plan is always planned. -/
theorem buildFilter_total (fx : Intrinsics) {input : Plan} (hread : Readable fx snap input)
    (pred : Expr) : ∃ out, buildFilter (schemaOf snap) input pred = .ok out := by
  induction input generalizing pred with
  | scan table alias_ =>
    obtain ⟨rel, hrel⟩ := hread
    obtain ⟨image, hi, -⟩ := scan_shape hrel
    refine ⟨accessPath image.def_ table alias_ pred, ?_⟩
    rw [buildFilter, indexSelect, tableDef, schemaOf_image hi]
    rfl
  | join kind left right on ihl ihr =>
    have hside : ∀ {place : Expr → CatResult Plan} {side : Plan} (conjuncts : List Expr),
        (∀ pred, ∃ out, place pred = .ok out) → ∃ out, pushSide place side conjuncts = .ok out := by
      intro place side conjuncts hplace
      rw [pushSide]
      split
      · exact ⟨_, rfl⟩
      · exact hplace _
    rw [buildFilter]
    split
    · exact ⟨_, rfl⟩
    · rw [exposed_eq fx hread.1, exposed_eq fx hread.2]
      rw [Result.ok_bind, Result.ok_bind]
      obtain ⟨newLeft, hl⟩ := hside _ (fun pred => ihl hread.1 pred)
      obtain ⟨newRight, hr⟩ := hside _ (fun pred => ihr hread.2 pred)
      exact ⟨_, Result.bind_eq_ok.2 ⟨newLeft, hl, Result.bind_eq_ok.2 ⟨newRight, hr, rfl⟩⟩⟩
  | _ => exact ⟨_, rfl⟩

/-! ## Plans -/

variable (fx) in
/-- The planner rewrites a plan into one that stands for the same. -/
theorem optimize_meaning (hs : SnapshotServed snap) {plan : Plan} (hread : Readable fx snap plan)
    (hfits : planFits snap plan = true) : ∃ out, optimize (schemaOf snap) plan = .ok out ∧
      Readable fx snap out ∧ meaning fx snap out = meaning fx snap plan := by
  induction plan with
  | scan table alias_ => exact ⟨_, rfl, hread, rfl⟩
  | indexScan table alias_ index keyPrefix => exact ⟨_, rfl, hread, rfl⟩
  | pkLookup table alias_ key => exact ⟨_, rfl, hread, rfl⟩
  | filter input pred ih =>
    rw [planFits, Bool.and_eq_true] at hfits
    -- only a filter is moved; the input is planned first
    obtain ⟨input', hinput, hread', hsame⟩ := ih hread hfits.1
    obtain ⟨out, hout⟩ := buildFilter_total fx hread' pred
    have hpins := hfits.2
    rw [hinput] at hpins
    obtain ⟨hreads, hmeans⟩ := buildFilter_filters fx hs hread' hpins hout
    refine ⟨out, ?_, hreads, ?_⟩
    · rw [optimize, hinput]
      exact hout
    · rw [hmeans, hsame, meaning]
  -- every other operator keeps its place over planned inputs
  | join kind left right on ihl ihr =>
    rw [planFits, Bool.and_eq_true] at hfits
    obtain ⟨left', hl, hreadl, hsamel⟩ := ihl hread.1 hfits.1
    obtain ⟨right', hr, hreadr, hsamer⟩ := ihr hread.2 hfits.2
    refine ⟨.join kind left' right' on, ?_, ⟨hreadl, hreadr⟩, ?_⟩
    · rw [optimize, hl, hr]
      rfl
    · rw [meaning, meaning, hsamel, hsamer]
  | aggregate input by_ aggs ih =>
    obtain ⟨input', hinput, hread', hsame⟩ := ih hread hfits
    refine ⟨.aggregate input' by_ aggs, ?_, hread', ?_⟩
    · rw [optimize, hinput]
      rfl
    · rw [meaning, meaning, hsame]
  | project input items ih =>
    obtain ⟨input', hinput, hread', hsame⟩ := ih hread hfits
    refine ⟨.project input' items, ?_, hread', ?_⟩
    · rw [optimize, hinput]
      rfl
    · rw [meaning, meaning, hsame]
  | distinct input ih =>
    obtain ⟨input', hinput, hread', hsame⟩ := ih hread hfits
    refine ⟨.distinct input', ?_, hread', ?_⟩
    · rw [optimize, hinput]
      rfl
    · rw [meaning, meaning, hsame]
  | sort input keys ih =>
    obtain ⟨input', hinput, hread', hsame⟩ := ih hread.1 hfits
    refine ⟨.sort input' keys, ?_, ⟨hread', hsame ▸ hread.2⟩, ?_⟩
    · rw [optimize, hinput]
      rfl
    · rw [meaning, meaning, hsame]
  | limit input limit offset ih =>
    obtain ⟨input', hinput, hread', hsame⟩ := ih hread hfits
    refine ⟨.limit input' limit offset, ?_, hread', ?_⟩
    · rw [optimize, hinput]
      rfl
    · rw [meaning, meaning, hsame]
  | cursor input token => exact hread.elim

/-- A plan has an inner or cross join. -/
def pairs : Plan → Bool
  | .join kind left right _ => decide (kind ≠ .left) || pairs left || pairs right
  | .filter input _ => pairs input
  | .aggregate input _ _ => pairs input
  | .project input _ => pairs input
  | .distinct input => pairs input
  | .sort input _ => pairs input
  | .limit input _ _ => pairs input
  | .cursor input _ => pairs input
  | _ => false

theorem pairs_wrapFilter (input : Plan) (conjuncts : List Expr) :
    pairs (wrapFilter input conjuncts) = pairs input := by
  rw [wrapFilter]
  split <;> rfl

theorem pairs_accessPath (d : TableDef) (table : String) (alias_ : Option String) (pred : Expr) :
    pairs (accessPath d table alias_ pred) = false := by
  rw [accessPath]
  split
  · exact pairs_wrapFilter _ _
  · split
    · rfl
    · exact pairs_wrapFilter _ _

/-- Without a join below it, a filter returns where it is placed when it does where it was. -/
theorem buildFilter_returns (hs : SnapshotServed snap) {input out : Plan} {pred : Expr}
    {rel : Relation} (hpairs : pairs input = false) (hpins : pinsOver snap input pred = true)
    (h : buildFilter (schemaOf snap) input pred = .ok out)
    (hexec : execute fx snap (.filter input pred) = .ok rel) :
    execute fx snap out = .ok rel ∧ pairs out = false := by
  have hplain : ∀ {out : Plan}, (Except.ok (Plan.filter input pred) : CatResult Plan) = .ok out →
      execute fx snap out = .ok rel ∧ pairs out = false := by
    intro out h
    cases h
    exact ⟨hexec, hpairs⟩
  cases input with
  | scan table alias_ =>
    have hmeaning := meaning_of_execute hexec
    obtain ⟨inner, hinner, hrows⟩ := Result.bind_eq_ok.1 hexec
    obtain ⟨rows, hrows, -⟩ := Result.bind_eq_ok.1 hrows
    obtain ⟨image, hi, -⟩ := scan_shape hinner
    have hscan := scan_eq hi (hs table image hi) alias_
    cases hscan.symm.trans hinner
    rw [pinsOver, hi] at hpins
    have hserves := accessPath_serves fx hi (hs table image hi) hpins
    rw [buildFilter, indexSelect, tableDef, schemaOf_image hi] at h
    cases h
    refine ⟨?_, pairs_accessPath _ _ _ _⟩
    rw [hserves.returns ((filterRows_eq_ok fx).1 hrows).1, hserves.means, ← hmeaning, meaning,
      meaning_of_execute hinner]
  | join kind left right on =>
    rw [buildFilter] at h
    rw [pairs, Bool.or_eq_false_iff, Bool.or_eq_false_iff, decide_eq_false_iff_not,
      not_not] at hpairs
    rw [if_pos hpairs.1.1] at h
    exact hplain h
  | _ => exact hplain h

/-- Without an inner or cross join the planned execution returns what the reference does. -/
theorem optimize_returns (hs : SnapshotServed snap) {plan : Plan}
    (hfits : planFits snap plan = true) (hpairs : pairs plan = false) :
    ∀ {rel : Relation} {out : Plan},
      execute fx snap plan = .ok rel → optimize (schemaOf snap) plan = .ok out →
        execute fx snap out = .ok rel ∧ pairs out = false := by
  induction plan with
  | scan table alias_ =>
    intro rel out hexec h
    cases h
    exact ⟨hexec, rfl⟩
  | indexScan table alias_ index keyPrefix =>
    intro rel out hexec h
    cases h
    exact ⟨hexec, rfl⟩
  | pkLookup table alias_ key =>
    intro rel out hexec h
    cases h
    exact ⟨hexec, rfl⟩
  -- only a filter is moved, and not through a join
  | filter input pred ih =>
    intro rel out hexec h
    rw [planFits, Bool.and_eq_true] at hfits
    obtain ⟨inner, hinner, hexec⟩ := Result.bind_eq_ok.1 hexec
    obtain ⟨input', hinput, h⟩ := Result.bind_eq_ok.1 h
    obtain ⟨hexec', hpairs'⟩ := ih hfits.1 hpairs hinner hinput
    have hpins := hfits.2
    rw [hinput] at hpins
    exact buildFilter_returns hs hpairs' hpins h (Result.bind_eq_ok.2 ⟨inner, hexec', hexec⟩)
  | join kind left right on ihl ihr =>
    intro rel out hexec h
    rw [planFits, Bool.and_eq_true] at hfits
    rw [pairs, Bool.or_eq_false_iff, Bool.or_eq_false_iff] at hpairs
    obtain ⟨l, hl, hexec⟩ := Result.bind_eq_ok.1 hexec
    obtain ⟨r, hr, hexec⟩ := Result.bind_eq_ok.1 hexec
    obtain ⟨left', hleft, h⟩ := Result.bind_eq_ok.1 h
    obtain ⟨right', hright, h⟩ := Result.bind_eq_ok.1 h
    cases h
    obtain ⟨hexecl, hpairsl⟩ := ihl hfits.1 hpairs.1.2 hl hleft
    obtain ⟨hexecr, hpairsr⟩ := ihr hfits.2 hpairs.2 hr hright
    refine ⟨Result.bind_eq_ok.2 ⟨l, hexecl, Result.bind_eq_ok.2 ⟨r, hexecr, hexec⟩⟩, ?_⟩
    rw [pairs, hpairs.1.1, hpairsl, hpairsr]
    rfl
  -- every other operator runs over what its planned input returns
  | aggregate input by_ aggs ih =>
    intro rel out hexec h
    obtain ⟨inner, hinner, hexec⟩ := Result.bind_eq_ok.1 hexec
    obtain ⟨input', hinput, h⟩ := Result.bind_eq_ok.1 h
    cases h
    obtain ⟨hexec', hpairs'⟩ := ih hfits hpairs hinner hinput
    exact ⟨Result.bind_eq_ok.2 ⟨inner, hexec', hexec⟩, hpairs'⟩
  | project input items ih =>
    intro rel out hexec h
    obtain ⟨inner, hinner, hexec⟩ := Result.bind_eq_ok.1 hexec
    obtain ⟨input', hinput, h⟩ := Result.bind_eq_ok.1 h
    cases h
    obtain ⟨hexec', hpairs'⟩ := ih hfits hpairs hinner hinput
    exact ⟨Result.bind_eq_ok.2 ⟨inner, hexec', hexec⟩, hpairs'⟩
  | distinct input ih =>
    intro rel out hexec h
    obtain ⟨inner, hinner, hexec⟩ := Result.bind_eq_ok.1 hexec
    obtain ⟨input', hinput, h⟩ := Result.bind_eq_ok.1 h
    cases h
    obtain ⟨hexec', hpairs'⟩ := ih hfits hpairs hinner hinput
    exact ⟨Result.bind_eq_ok.2 ⟨inner, hexec', hexec⟩, hpairs'⟩
  | sort input keys ih =>
    intro rel out hexec h
    obtain ⟨inner, hinner, hexec⟩ := Result.bind_eq_ok.1 hexec
    obtain ⟨input', hinput, h⟩ := Result.bind_eq_ok.1 h
    cases h
    obtain ⟨hexec', hpairs'⟩ := ih hfits hpairs hinner hinput
    exact ⟨Result.bind_eq_ok.2 ⟨inner, hexec', hexec⟩, hpairs'⟩
  | limit input limit offset ih =>
    intro rel out hexec h
    obtain ⟨inner, hinner, hexec⟩ := Result.bind_eq_ok.1 hexec
    obtain ⟨input', hinput, h⟩ := Result.bind_eq_ok.1 h
    cases h
    obtain ⟨hexec', hpairs'⟩ := ih hfits hpairs hinner hinput
    exact ⟨Result.bind_eq_ok.2 ⟨inner, hexec', hexec⟩, hpairs'⟩
  | cursor input token =>
    intro rel out hexec
    cases hexec

/-- Planning a plan whose filters fit. -/
theorem plan_preserves (hs : SnapshotServed snap) {logical : Plan} {rel : Relation}
    (hfits : planFits snap logical = true) (h : execute fx snap logical = .ok rel) :
    ∃ physical, plan logical (schemaOf snap) = .ok physical ∧
      (execute fx snap physical = .ok rel ∨
        (pairs logical = true ∧ ∃ e, execute fx snap physical = .error (.eval e))) := by
  obtain ⟨physical, hplan, hread, hmeans⟩ :=
    optimize_meaning fx hs (readable_of_execute h) hfits
  refine ⟨physical, hplan, ?_⟩
  cases hpairs : pairs logical with
  | false => exact .inl (optimize_returns hs hfits hpairs h hplan).1
  | true =>
    have hcomputes := execute_computes fx hread
    rw [hmeans, meaning_of_execute h] at hcomputes
    cases hphysical : execute fx snap physical with
    | ok out =>
      rw [hphysical] at hcomputes
      exact .inl (congrArg Except.ok hcomputes)
    | error e =>
      rw [hphysical] at hcomputes
      obtain ⟨err, rfl⟩ := hcomputes
      exact .inr ⟨rfl, err, rfl⟩

end

/-! ## Every run -/

/-- What runs that keep tables readable by their indexes ask of their jobs. -/
abbrev KeepsServed : JobCond := UpdatesApart.and UpdatesUnmanagedKeys

/-- The tables of every state that a run reaches are served by their snapshots. -/
theorem snapshot_served {ops : List JobOp} {s : CatState} (h : RunWhere KeepsServed ops s) :
    SnapshotServed s.snapshot := by
  intro table image hi
  have himage := CatSnapshot.image_eq_ok hi
  have hsound := h.sound
  have hindexed := (h.mono (fun _ _ _ _ h => h.1)).indexed table image himage
  have hvalid := (RunWhere.induct rowsValid_kept ⟨.empty, fun _ _ himage => by cases himage⟩
    (h.mono (fun _ _ _ _ h => h.2))).2 table image himage
  exact ⟨(hsound.wellFormed.tables table image himage).def_,
    (indexed_iff_consistent (hsound.inOrder table image himage)
      (hsound.readable table image himage)).1 hindexed, hvalid⟩

/-- **The planner preserves meaning.** In every state of a run whose updates are apart and move no
key the engine manages, a plan the reference executor returns a relation for has a planned one,
which returns the same relation, rows in the same order, or fails in an evaluation; the latter only
if the plan has an inner or cross join. -/
theorem planned_preserves (fx : Intrinsics) {ops : List JobOp} {s : CatState}
    (h : RunWhere KeepsServed ops s) {logical : Plan} {rel : Relation}
    (hfits : planFits s.snapshot logical = true) (hexec : execute fx s.snapshot logical = .ok rel) :
    ∃ physical, plan logical (schemaOf s.snapshot) = .ok physical ∧
      (execute fx s.snapshot physical = .ok rel ∨
        (pairs logical = true ∧ ∃ e, execute fx s.snapshot physical = .error (.eval e))) :=
  plan_preserves (snapshot_served h) hfits hexec

/-- The guest with the id 2 and the coats behind seat 2 with an id that is no greater. -/
def coatsOfGuest : Plan :=
  .filter (.join .inner (.scan "guests" (some "g")) (.scan "coats" (some "c"))
      (some (.cmp .eq (.column (some "g") "seat") (.column (some "c") "seat"))))
    (.and [.cmp .eq (.column (some "g") "id") (.literal (.i64 2)),
      .cmp .eq (.literal (.i64 2)) (.column (some "c") "seat"),
      .cmp .lte (.column (some "c") "id") (.column (some "g") "id")])

theorem meets_served_seated : ∀ op ∈ seated, ∀ env s,
    Meets KeepsServed (fun _ => env) 9 s op := by
  intro op hop env s
  have h := meets_unique_seated op hop env s
  simp only [seated, List.mem_cons, List.not_mem_nil, or_false] at hop
  rcases hop with rfl | rfl | rfl | rfl <;> exact ⟨h.1, h.2.1⟩

/-- A point lookup on one side of a join and an index on the other. -/
theorem planned_preserves_coats : ∃ s rel physical, RunWhere KeepsServed seated s ∧
    rel.rows = [[.i64 2, .i64 2, .i64 2, .i64 2]] ∧
    plan coatsOfGuest (schemaOf s.snapshot) = .ok physical ∧
    (execute integerIntrinsics s.snapshot physical = .ok rel ∨ (pairs coatsOfGuest = true ∧
      ∃ e, execute integerIntrinsics s.snapshot physical = .error (.eval e))) := by
  obtain ⟨s, hrun, htest⟩ := RunWhere.eval tickingEnv 9 seated
    (fun s : CatState => planFits s.snapshot coatsOfGuest &&
      (execute integerIntrinsics s.snapshot coatsOfGuest).toOption.any
        (fun rel : Relation => decide (rel.rows = [[.i64 2, .i64 2, .i64 2, .i64 2]])))
    meets_served_seated (by decide +kernel)
  rw [Bool.and_eq_true] at htest
  obtain ⟨rel, hrel, hrows⟩ := (Option.any_eq_true _ _).1 htest.2
  obtain ⟨physical, hplan⟩ := planned_preserves integerIntrinsics hrun htest.1
    (Result.toOption_eq_some hrel)
  exact ⟨s, rel, physical, hrun, of_decide_eq_true hrows, hplan⟩

end Edb.Query
