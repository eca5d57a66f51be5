import Edb.Query.Kinds

/-!
# Preservation: what a select returns against the schema it declares

* **A plan yields values of its kinds** (`execute_kinds`), on every snapshot whose rows conform.
* **A select returns what it declares** (`validated_select_preserves`) where the types it declares
  cover these kinds.
-/

namespace Edb.Query

open Edb.Types Edb.Proto Edb.Lib
open Edb.Catalog hiding CmpOp

/-! ## Aggregates -/

theorem getD_kinds {t : Kinds} {vals : List Value} {o : Option Value}
    (hvals : ∀ v ∈ vals, t.Has v) (ho : ∀ v, o = some v → v ∈ vals) :
    t.orNull.Has (o.getD .null) := by
  cases o with
  | none => rfl
  | some v => exact (hvals v (ho v rfl)).orNull

/-- A sum is a float when a float is among the values, else an integer. -/
theorem sum_kinds {fx : Intrinsics} {t : Kinds} {vals : List Value} {v : Value}
    (hvals : ∀ w ∈ vals, t.Has w ∧ w.isNull = false) (h : sum fx vals = .ok v) :
    (Kinds.mk true ((if .f64 ∈ t.kinds then [.f64] else []) ++
      (if t.kinds.any (· ≠ .f64) then [.i64] else []))).Has v := by
  rw [sum] at h
  split at h
  · cases h
    rfl
  · split at h
    · next hfloat =>
      cases h
      obtain ⟨w, hw, hwf⟩ := List.any_eq_true.1 hfloat
      have hin : TypeKind.f64 ∈ t.kinds := by
        have hkind := (hvals w hw).1
        cases w <;> first | exact hkind | cases hwf
      rw [Kinds.Has, if_pos hin]
      exact List.mem_append_left _ (List.mem_singleton_self _)
    · next hne hnone =>
      obtain ⟨acc, _, h⟩ := Result.bind_eq_ok.1 h
      cases h
      -- the first value is neither null nor a float
      obtain ⟨w, rest, rfl⟩ := List.exists_cons_of_ne_nil hne
      obtain ⟨hkind, hnull⟩ := hvals w List.mem_cons_self
      have hother : t.kinds.any (· ≠ .f64) = true := by
        rw [List.any_cons, Bool.or_eq_true, not_or] at hnone
        obtain ⟨k, hk, hk64⟩ : ∃ k, w.kind = some k ∧ k ≠ .f64 := by
          cases w <;> first
            | exact absurd rfl hnone.1
            | exact ⟨_, rfl, by decide⟩
            | cases hnull
        rw [Kinds.Has, hk] at hkind
        exact List.any_eq_true.2 ⟨k, hkind, decide_eq_true hk64⟩
      rw [Kinds.Has, if_pos hother]
      exact List.mem_append_right _ (List.mem_singleton_self _)

section

variable (fx : Intrinsics) {cols : Cols}

/-- What an aggregate computes over a group is of its kinds. -/
theorem computeAgg_kinds {members : List Row} {expr : Expr} {v : Value}
    (hrows : ∀ row ∈ members, RowFits cols row)
    (h : computeAgg fx expr members cols.shape = .ok v) : (kindsAgg cols expr).Has v := by
  cases expr with
  | agg func arg =>
    obtain ⟨vals, hvals, h⟩ := Result.bind_eq_ok.1 h
    have hkinds : ∀ w ∈ vals.filter (fun v => !v.isNull),
        (kindsExpr cols arg).Has w ∧ w.isNull = false := by
      intro w hw
      obtain ⟨hw, hnull⟩ := List.mem_filter.1 hw
      obtain ⟨row, hrow, heval⟩ := Result.mem_of_mapM hvals hw
      refine ⟨eval_kinds fx (hrows row hrow) arg heval, ?_⟩
      rwa [Bool.not_eq_true'] at hnull
    cases func with
    | count =>
      cases h
      exact List.mem_singleton_self _
    | sum => exact sum_kinds hkinds h
    | min =>
      cases h
      exact getD_kinds (fun w hw => (hkinds w hw).1) (fun _ => minBy_mem)
    | max =>
      cases h
      exact getD_kinds (fun w hw => (hkinds w hw).1) (fun _ => maxBy_mem)
    | avg =>
      cases h
      rw [avg]
      split
      · rfl
      · exact List.mem_singleton_self _
  | _ =>
    cases h
    rfl

/-! ## Relations -/

/-- A relation has the columns and values of their kinds. -/
def Relation.Fits (rel : Relation) (cols : Cols) : Prop :=
  rel.shape = cols.shape ∧ ∀ row ∈ rel.rows, RowFits cols row

/-- A relation whose rows are among those of another. -/
theorem Relation.Fits.of_mem {rel rel' : Relation} (h : rel.Fits cols)
    (hshape : rel'.shape = rel.shape) (hmem : ∀ row ∈ rel'.rows, row ∈ rel.rows) :
    rel'.Fits cols := ⟨hshape.trans h.1, fun row hrow => h.2 row (hmem row hrow)⟩

/-- A filter returns rows of its input. -/
theorem mem_filterRows {pred : Expr} {shape : Shape} {rows : List Row} :
    ∀ {out : List Row}, filterRows fx pred shape rows = .ok out → ∀ row ∈ out, row ∈ rows := by
  induction rows with
  | nil =>
    intro out h
    cases h
    exact fun row hrow => hrow
  | cons r rows ih =>
    intro out h row hrow
    rw [filterRows] at h
    obtain ⟨keep, _, h⟩ := Result.bind_eq_ok.1 h
    obtain ⟨rest, hrest, h⟩ := Result.bind_eq_ok.1 h
    cases h
    cases keep with
    | true =>
      rcases List.mem_cons.1 hrow with rfl | hrow
      · exact List.mem_cons_self
      · exact List.mem_cons_of_mem _ (ih hrest row hrow)
    | false => exact List.mem_cons_of_mem _ (ih hrest row hrow)

/-- A sort returns rows of its input, in the same columns. -/
theorem mem_sort {rel out : Relation} {keys : List SortKey} (h : sort fx rel keys = .ok out) :
    out.shape = rel.shape ∧ ∀ row ∈ out.rows, row ∈ rel.rows := by
  obtain ⟨keyed, hkeyed, h⟩ := Result.bind_eq_ok.1 h
  obtain ⟨sorted, hsorted, h⟩ := Result.bind_eq_ok.1 h
  cases h
  refine ⟨rfl, ?_⟩
  intro row hrow
  obtain ⟨kr, hkr, rfl⟩ := List.mem_map.1 hrow
  have hperm := fx.sortBy.perm (stableSort_eq_ok.1 hsorted)
  obtain ⟨r, hr, hstored⟩ := Result.mem_of_mapM (ofEval_eq_ok.1 hkeyed) (hperm.mem_iff.1 hkr)
  obtain ⟨ks, _, hstored⟩ := Result.bind_eq_ok.1 hstored
  cases hstored
  exact hr

theorem mem_applyLimit {rows : List Row} {limit : Option Nat} {offset : Nat} {row : Row}
    (h : row ∈ applyLimit rows limit offset) : row ∈ rows := by
  cases limit with
  | none => exact List.mem_of_mem_drop h
  | some n => exact List.mem_of_mem_drop (List.mem_of_mem_take h)

/-! ### Joins -/

theorem fits_orNull {row : Row} (h : RowFits cols row) : RowFits cols.orNull row := by
  rw [RowFits, Cols.orNull, List.forall₂_map_left_iff]
  exact h.imp (fun _ _ hv => hv.orNull)

theorem nulls_fit (cols : Cols) : RowFits cols.orNull (List.replicate cols.length .null) := by
  rw [RowFits, Cols.orNull, List.forall₂_map_left_iff]
  induction cols with
  | nil => exact .nil
  | cons c cols ih => exact .cons rfl ih

theorem shape_orNull (cols : Cols) : cols.orNull.shape = cols.shape := by
  rw [Cols.shape, Cols.orNull, List.map_map]
  rfl

/-- A row is joined with rows of the right side. -/
theorem mem_joinRow {on : Option Expr} {shape : Shape} {lrow : Row} {rrows : List Row} :
    ∀ {out : List Row}, joinRow fx on shape lrow rrows = .ok out →
      ∀ row ∈ out, ∃ rrow ∈ rrows, row = lrow ++ rrow := by
  induction rrows with
  | nil =>
    intro out h row hrow
    cases h
    cases hrow
  | cons r rrows ih =>
    intro out h row hrow
    rw [joinRow] at h
    obtain ⟨keep, _, h⟩ := Result.bind_eq_ok.1 h
    obtain ⟨rest, hrest, h⟩ := Result.bind_eq_ok.1 h
    cases h
    have hlater : row ∈ rest → ∃ rrow ∈ r :: rrows, row = lrow ++ rrow := by
      intro hrow
      obtain ⟨rrow, hr, heq⟩ := ih hrest row hrow
      exact ⟨rrow, List.mem_cons_of_mem _ hr, heq⟩
    cases keep with
    | true =>
      rcases List.mem_cons.1 hrow with rfl | hrow
      · exact ⟨r, List.mem_cons_self, rfl⟩
      · exact hlater hrow
    | false => exact hlater hrow

/-- A joined row is a left row with a right row, or with nulls under a left join. -/
theorem mem_joinRows {kind : JoinKind} {on : Option Expr} {shape : Shape} {width : Nat}
    {rrows lrows : List Row} :
    ∀ {out : List Row}, joinRows fx kind on shape width rrows lrows = .ok out → ∀ row ∈ out,
      ∃ lrow ∈ lrows, (∃ rrow ∈ rrows, row = lrow ++ rrow) ∨
        (kind = .left ∧ row = lrow ++ List.replicate width .null) := by
  induction lrows with
  | nil =>
    intro out h row hrow
    cases h
    cases hrow
  | cons l lrows ih =>
    intro out h row hrow
    rw [joinRows] at h
    obtain ⟨joined, hjoined, h⟩ := Result.bind_eq_ok.1 h
    obtain ⟨rest, hrest, h⟩ := Result.bind_eq_ok.1 h
    cases h
    rcases List.mem_append.1 hrow with hrow | hrow
    · refine ⟨l, List.mem_cons_self, ?_⟩
      rw [padUnmatched] at hrow
      split at hrow
      · next hpad => exact .inr ⟨hpad.1, List.mem_singleton.1 hrow⟩
      · exact .inl (mem_joinRow fx hjoined row hrow)
    · obtain ⟨lrow, hl, hcase⟩ := ih hrest row hrow
      exact ⟨lrow, List.mem_cons_of_mem _ hl, hcase⟩

/-- A join keeps the kinds of its sides, the right ones nullable in an outer join. -/
theorem join_kinds {kind : JoinKind} {on : Option Expr} {lcols rcols : Cols}
    {l r out : Relation} (hl : l.Fits lcols) (hr : r.Fits rcols)
    (h : join fx kind l r on = .ok out) :
    out.Fits (lcols ++ if kind = .left then rcols.orNull else rcols) := by
  obtain ⟨rows, hrows, h⟩ := Result.bind_eq_ok.1 h
  cases h
  have hside : ∀ row ∈ r.rows, RowFits (if kind = .left then rcols.orNull else rcols) row := by
    intro row hrow
    split
    · exact fits_orNull (hr.2 row hrow)
    · exact hr.2 row hrow
  constructor
  · show l.shape.concat r.shape = _
    rw [hl.1, hr.1, Cols.shape, Cols.shape, Cols.shape, List.map_append]
    split
    · have hcols := congrArg Shape.cols (shape_orNull rcols)
      rw [Shape.concat, ← show rcols.orNull.map Prod.fst = rcols.map Prod.fst from hcols]
    · rfl
  · intro row hrow
    obtain ⟨lrow, hlrow, hcase⟩ := mem_joinRows fx hrows row hrow
    rcases hcase with ⟨rrow, hrrow, rfl⟩ | ⟨hkind, rfl⟩
    · exact List.rel_append (hl.2 lrow hlrow) (hside rrow hrrow)
    · refine List.rel_append (hl.2 lrow hlrow) ?_
      rw [if_pos hkind, hr.1, Cols.shape, List.length_map]
      exact nulls_fit rcols

/-! ### Groups -/

/-- Groups with members, all of them rows of an input. -/
def GroupedFrom (rows : List Row) (groups : List Group) : Prop :=
  ∀ g ∈ groups, g.members ≠ [] ∧ ∀ row ∈ g.members, row ∈ rows

/-- A row joins the group of its key, or starts one. -/
theorem addToGroup_from {rows : List Row} {key row : Row} (hrow : row ∈ rows)
    {groups : List Group} (h : GroupedFrom rows groups) :
    GroupedFrom rows (addToGroup key row groups) := by
  induction groups with
  | nil =>
    intro g hg
    rw [List.mem_singleton.1 hg]
    refine ⟨List.cons_ne_nil _ _, ?_⟩
    intro r hr
    rw [List.mem_singleton.1 hr]
    exact hrow
  | cons g groups ih =>
    have hrest : GroupedFrom rows groups := fun g' hg' => h g' (List.mem_cons_of_mem _ hg')
    rw [addToGroup]
    split
    · intro g' hg'
      rcases List.mem_cons.1 hg' with rfl | hg'
      · refine ⟨List.append_ne_nil_of_right_ne_nil _ (List.cons_ne_nil _ _), ?_⟩
        intro r hr
        rcases List.mem_append.1 hr with hr | hr
        · exact (h g List.mem_cons_self).2 r hr
        · rw [List.mem_singleton.1 hr]
          exact hrow
      · exact hrest g' hg'
    · intro g' hg'
      rcases List.mem_cons.1 hg' with rfl | hg'
      · exact h g' List.mem_cons_self
      · exact ih hrest g' hg'

/-- The groups are made of the rows of the input. -/
theorem bucket_from {by_ : List Expr} {shape : Shape} {all rows : List Row} :
    ∀ {groups out : List Group}, (∀ row ∈ rows, row ∈ all) → GroupedFrom all groups →
      bucket fx by_ shape groups rows = .ok out → GroupedFrom all out := by
  induction rows with
  | nil =>
    intro groups out _ hg h
    cases h
    exact hg
  | cons row rows ih =>
    intro groups out hrows hg h
    rw [bucket] at h
    obtain ⟨key, _, h⟩ := Result.bind_eq_ok.1 h
    refine ih (fun r hr => hrows r (List.mem_cons_of_mem _ hr)) ?_ h
    exact addToGroup_from (hrows row List.mem_cons_self) hg

/-- Values computed one by one are of the kinds given one by one. -/
theorem mapM_kinds {α : Type} {items : List α} {f : α → Except EvalError Value}
    {name : α → BoundColumn} {kind : α → Kinds} {vals : List Value}
    (h : items.mapM f = .ok vals) (hf : ∀ a ∈ items, ∀ v, f a = .ok v → (kind a).Has v) :
    RowFits (items.map (fun a => (name a, kind a))) vals := by
  rw [RowFits, List.forall₂_map_left_iff]
  have hall := Result.mapM_eq_ok.1 h
  clear h
  induction hall with
  | nil => exact .nil
  | @cons a v items vals hav _ ih =>
    exact .cons (hf a List.mem_cons_self v hav)
      (ih (fun b hb => hf b (List.mem_cons_of_mem _ hb)))

/-- An aggregate keeps the kinds it passes through and has those of its functions. -/
theorem aggregate_kinds {rel out : Relation} {by_ : List Expr} {aggs : List (String × Expr)}
    (hrel : rel.Fits cols) (h : aggregate fx rel by_ aggs = .ok out) :
    out.Fits ((if by_ = [] then cols.orNull else cols) ++
      aggs.map (fun a => (⟨none, a.1⟩, kindsAgg cols a.2))) := by
  obtain ⟨groups, hgroups, h⟩ := Result.bind_eq_ok.1 h
  obtain ⟨rows, hrows, h⟩ := Result.bind_eq_ok.1 h
  cases h
  have hfrom : GroupedFrom rel.rows groups :=
    bucket_from fx (fun _ h => h) (fun g hg => by cases hg) (ofEval_eq_ok.1 hgroups)
  constructor
  · show Shape.mk (rel.shape.cols ++ _) = _
    rw [hrel.1, Cols.shape, Cols.shape, List.map_append, List.map_map]
    split
    · have hcols := congrArg Shape.cols (shape_orNull cols)
      rw [show cols.orNull.map Prod.fst = cols.map Prod.fst from hcols]
      rfl
    · rfl
  · intro row hrow
    obtain ⟨g, hg, hgrow⟩ := Result.mem_of_mapM (ofEval_eq_ok.1 hrows) hrow
    obtain ⟨outs, houts, hgrow⟩ := Result.bind_eq_ok.1 hgrow
    cases hgrow
    -- a group is one of the input's rows, or the empty one there is without keys
    have hmembers : (∀ r ∈ g.members, RowFits cols r) ∧ (g.members = [] → by_ = []) := by
      rw [globalGroup] at hg
      split at hg
      · next hglobal =>
        rw [List.mem_singleton.1 hg]
        refine ⟨(fun r hr => by cases hr), fun _ => ?_⟩
        rw [Bool.and_eq_true] at hglobal
        exact List.isEmpty_iff.1 hglobal.1
      · exact ⟨fun r hr => hrel.2 r ((hfrom g hg).2 r hr),
          fun hempty => absurd hempty (hfrom g hg).1⟩
    refine List.rel_append ?_ ?_
    · cases hm : g.members with
      | nil =>
        rw [if_pos (hmembers.2 hm), hrel.1]
        show RowFits _ (List.replicate (cols.map Prod.fst).length .null)
        rw [List.length_map]
        exact nulls_fit cols
      | cons r rest =>
        have hr := hmembers.1 r (by rw [hm]; exact List.mem_cons_self)
        show RowFits _ r
        split
        · exact fits_orNull hr
        · exact hr
    · rw [hrel.1] at houts
      exact mapM_kinds houts (fun a _ v hv => computeAgg_kinds fx hmembers.1 hv)

/-! ### Projection -/

/-- A projection has the kinds of its items. -/
theorem project_kinds {rel out : Relation} {items : List Projection} (hrel : rel.Fits cols)
    (h : project fx rel items = .ok out) :
    out.Fits (items.zipIdx.map (fun (item, i) =>
      (⟨none, outputNameOf item i⟩, kindsExpr cols (itemExpr item)))) := by
  obtain ⟨rows, hrows, h⟩ := Result.bind_eq_ok.1 h
  cases h
  constructor
  · rw [Cols.shape, List.map_map]
    rfl
  · intro row hrow
    obtain ⟨r, hr, hproj⟩ := Result.mem_of_mapM (ofEval_eq_ok.1 hrows) hrow
    rw [hrel.1] at hproj
    have hfits :
        RowFits (items.map (fun item => (⟨none, ""⟩, kindsExpr cols (itemExpr item)))) row :=
      mapM_kinds hproj (fun item _ v hv => eval_kinds fx (hrel.2 r hr) (itemExpr item) hv)
    rw [RowFits, List.forall₂_map_left_iff] at hfits ⊢
    rw [← List.zipIdx_map_fst 0 items, List.forall₂_map_left_iff] at hfits
    exact hfits

end

/-! ## Plans -/

/-- Every row a snapshot stores is one of its table's definition, which is the one the schema
has: null where the column allows it, else of the column's kind. -/
def SnapshotFits (schema : SchemaView) (snap : CatSnapshot) : Prop :=
  ∀ table image, snap.image table = .ok image → schema table = .ok (some image.def_) ∧
    ∀ entry ∈ image.data, ∀ row, decodePadded image.def_ entry.2 = .ok row →
      List.Forall₂ (fun (ci : ColumnDef × Nat) (v : Value) =>
        (v.kind = none → image.def_.isNullable ci.2 = true) ∧
          ∀ k, v.kind = some k → k = ci.1.kind) image.def_.columns.zipIdx row

section

variable {schema : SchemaView} {snap : CatSnapshot} (hsnap : SnapshotFits schema snap)

include hsnap

/-- The rows of a table, read in any way, have its columns' kinds. -/
theorem table_access_kinds {table : String} {alias_ : Option String} {image : TableImage}
    (hi : snap.image table = .ok image) {rows : List Row} (hrows : ∀ row ∈ rows, Stored image row) :
    Relation.Fits ⟨tableShape image.def_ (alias_.getD table), rows⟩
      (kindsScan schema table alias_) := by
  obtain ⟨hschema, hconf⟩ := hsnap table image hi
  have hcols : kindsScan schema table alias_ = kindsTable image.def_ (alias_.getD table) := by
    rw [kindsScan, lookup, hschema]
    rfl
  rw [hcols]
  constructor
  · show Shape.mk _ = Shape.mk _
    rw [kindsTable, List.map_map, ← ofTable_columns]
    rfl
  · intro row hrow
    obtain ⟨entry, hentry, hdec⟩ := hrows row hrow
    rw [RowFits, kindsTable, List.forall₂_map_left_iff, RowType.ofTable, List.forall₂_map_left_iff]
    apply (hconf entry hentry row hdec).imp
    intro ci v hv
    unfold Kinds.Has
    cases hk : v.kind with
    | none => exact hv.1 hk
    | some k =>
      rw [hv.2 k hk]
      exact List.mem_singleton_self _

/-- A scan has the kinds of the columns of its table. -/
theorem scan_kinds {table : String} {alias_ : Option String}
    {index : Option (String × List Value)} {rel : Relation}
    (h : scan snap table alias_ index = .ok rel) : rel.Fits (kindsScan schema table alias_) := by
  obtain ⟨def_, hdef, h⟩ := Result.bind_eq_ok.1 h
  obtain ⟨rows, hrows, h⟩ := Result.bind_eq_ok.1 h
  cases h
  rw [ofCatalog_eq_ok, CatSnapshot.table] at hdef
  obtain ⟨image, hi, hdef⟩ := Result.bind_eq_ok.1 hdef
  cases hdef
  have hstored : YieldsStored image (scanRows snap image.def_ table index) := scanRows_stored hi
  rw [ofCatalog_eq_ok.1 hrows] at hstored
  exact table_access_kinds hsnap hi (fun row hr => hstored row (mem_retainPrefix hr))

/-- A lookup has the kinds of the columns of its table. -/
theorem pkLookup_kinds {table : String} {alias_ : Option String} {key : List Value}
    {rel : Relation} (h : pkLookup snap table alias_ key = .ok rel) :
    rel.Fits (kindsScan schema table alias_) := by
  obtain ⟨def_, hdef, h⟩ := Result.bind_eq_ok.1 h
  obtain ⟨row, hrow, h⟩ := Result.bind_eq_ok.1 h
  cases h
  rw [ofCatalog_eq_ok, CatSnapshot.table] at hdef
  obtain ⟨image, hi, hdef⟩ := Result.bind_eq_ok.1 hdef
  cases hdef
  have hstored : Result.Holds (fun _ => True) (fun row => ∀ r ∈ row.toList, Stored image r)
      (snap.get table key) := get_stored hi
  rw [ofCatalog_eq_ok.1 hrow] at hstored
  exact table_access_kinds hsnap hi hstored

/-- What a plan yields is of its kinds. -/
theorem execute_kinds (fx : Intrinsics) {plan : Plan} :
    ∀ {rel : Relation}, execute fx snap plan = .ok rel → rel.Fits (kindsPlan schema plan) := by
  induction plan with
  | scan table alias_ => exact fun h => scan_kinds hsnap h
  | indexScan table alias_ index keyPrefix => exact fun h => scan_kinds hsnap h
  | pkLookup table alias_ key => exact fun h => pkLookup_kinds hsnap h
  | filter input pred ih =>
    intro rel h
    obtain ⟨inner, hinner, h⟩ := Result.bind_eq_ok.1 h
    obtain ⟨rows, hrows, h⟩ := Result.bind_eq_ok.1 h
    cases h
    exact (ih hinner).of_mem rfl (mem_filterRows fx hrows)
  | join kind left right on ihl ihr =>
    intro rel h
    obtain ⟨l, hl, h⟩ := Result.bind_eq_ok.1 h
    obtain ⟨r, hr, h⟩ := Result.bind_eq_ok.1 h
    exact join_kinds fx (ihl hl) (ihr hr) h
  | aggregate input by_ aggs ih =>
    intro rel h
    obtain ⟨inner, hinner, h⟩ := Result.bind_eq_ok.1 h
    exact aggregate_kinds fx (ih hinner) h
  | project input items ih =>
    intro rel h
    obtain ⟨inner, hinner, h⟩ := Result.bind_eq_ok.1 h
    exact project_kinds fx (ih hinner) h
  | distinct input ih =>
    intro rel h
    obtain ⟨inner, hinner, h⟩ := Result.bind_eq_ok.1 h
    cases h
    refine (ih hinner).of_mem rfl (fun row hrow => ?_)
    exact (mem_dedup hrow).resolve_left (fun h => by cases h)
  | sort input keys ih =>
    intro rel h
    obtain ⟨inner, hinner, h⟩ := Result.bind_eq_ok.1 h
    obtain ⟨hshape, hmem⟩ := mem_sort fx h
    exact (ih hinner).of_mem hshape hmem
  | limit input limit offset ih =>
    intro rel h
    obtain ⟨inner, hinner, h⟩ := Result.bind_eq_ok.1 h
    cases h
    exact (ih hinner).of_mem rfl (fun row hrow => mem_applyLimit hrow)
  | cursor input token _ =>
    intro rel h
    cases h

end

/-! ## The declared schema -/

/-- A value an output column declares. -/
def OutputColumn.Admits (o : OutputColumn) (v : Value) : Prop :=
  match v.kind with
  | none => o.nullable = true
  | some k => o.kind = none ∨ o.kind = some k

/-- An output column that declares all values of the kinds. -/
def OutputColumn.Covers (o : OutputColumn) (t : Kinds) : Prop :=
  (t.null = true → o.nullable = true) ∧ ∀ k ∈ t.kinds, o.kind = none ∨ o.kind = some k

/-- A relation has the columns a schema declares, with the values it declares. -/
def Relation.Delivers (rel : Relation) (output : List OutputColumn) : Prop :=
  rel.shape.cols.map BoundColumn.name = output.map OutputColumn.name ∧
    ∀ row ∈ rel.rows, List.Forall₂ OutputColumn.Admits output row

/-- Each output column declares the kinds the executor can give it. Then the rows are as declared;
they may be so without it, where they have fewer kinds than they could. -/
def Declares (schema : SchemaView) (plan : Plan) (output : List OutputColumn) : Prop :=
  List.Forall₂ (fun c o => OutputColumn.Covers o c.2) (kindsPlan schema plan) output

/-- A column that covers the kinds of an expression admits its values. -/
theorem OutputColumn.Covers.admits {o : OutputColumn} {t : Kinds} (h : o.Covers t) {v : Value}
    (hv : t.Has v) : o.Admits v := by
  unfold Kinds.Has at hv
  unfold Admits
  cases hk : v.kind with
  | none =>
    rw [hk] at hv
    exact h.1 hv
  | some k =>
    rw [hk] at hv
    exact h.2 k hv

theorem forall₂_admits {cols : Cols} {output : List OutputColumn} {row : Row}
    (h : List.Forall₂ (fun c o => OutputColumn.Covers o c.2) cols output)
    (hrow : RowFits cols row) :
    List.Forall₂ OutputColumn.Admits output row := by
  induction h generalizing row with
  | nil =>
    cases hrow
    exact .nil
  | cons hc _ ih =>
    cases hrow with
    | cons hv hrow => exact .cons (hc.admits hv) (ih hrow)

theorem map_fst_orNull (cols : Cols) : cols.orNull.map Prod.fst = cols.map Prod.fst :=
  congrArg Shape.cols (shape_orNull cols)

/-- The validator's columns are the executor's. -/
theorem checkPlan_columns {schema : SchemaView} {plan : Plan} :
    ∀ {rowTy : RowType}, checkPlan schema plan = .ok rowTy →
      rowTy.slots.map Slot.column = (kindsPlan schema plan).map Prod.fst := by
  have hscan : ∀ {table : String} {alias_ : Option String} {rowTy : RowType},
      (do let def_ ← lookup schema table; pure (RowType.ofTable def_ (alias_.getD table)))
        = Except.ok rowTy →
      rowTy.slots.map Slot.column = (kindsScan schema table alias_).map Prod.fst := by
    intro table alias_ rowTy h
    obtain ⟨def_, hlook, h⟩ := Result.bind_eq_ok.1 h
    cases h
    rw [kindsScan, hlook]
    show _ = (kindsTable def_ (alias_.getD table)).map Prod.fst
    rw [kindsTable, List.map_map]
    rfl
  induction plan with
  | scan table alias_ => exact hscan
  | indexScan table alias_ index keyPrefix => exact hscan
  | pkLookup table alias_ key => exact hscan
  | filter input pred ih =>
    intro rowTy h
    obtain ⟨row, hrow, h⟩ := Result.bind_eq_ok.1 h
    obtain ⟨_, _, h⟩ := Result.bind_eq_ok.1 h
    cases h
    exact ih hrow
  | join kind left right on ihl ihr =>
    intro rowTy h
    -- an outer join makes the right columns nullable: their names stay
    obtain ⟨l, hl, h⟩ := Result.bind_eq_ok.1 h
    obtain ⟨r, hr, h⟩ := Result.bind_eq_ok.1 h
    obtain ⟨_, _, h⟩ := Result.bind_eq_ok.1 h
    cases h
    rw [RowType.concat, kindsPlan, List.map_append, List.map_append, ihl hl]
    split
    · rw [madeNullable_columns, map_fst_orNull, ihr hr]
    · rw [ihr hr]
  | aggregate input by_ aggs ih =>
    intro rowTy h
    obtain ⟨row, hrow, h⟩ := Result.bind_eq_ok.1 h
    obtain ⟨_, _, h⟩ := Result.bind_eq_ok.1 h
    obtain ⟨outs, houts, h⟩ := Result.bind_eq_ok.1 h
    cases h
    -- the aggregates are appended without a table, after the columns passed through
    have hnames : outs.map Slot.column = aggs.map (fun a => ⟨none, a.1⟩) := by
      refine map_column (Result.mapM_eq_ok.1 houts) (fun a s hs => ?_)
      obtain ⟨ty, _, hs⟩ := Result.bind_eq_ok.1 hs
      cases hs
      rfl
    rw [kindsPlan, List.map_append, List.map_append, List.map_map, hnames, ih hrow]
    split
    · rw [map_fst_orNull]
      rfl
    · rfl
  | project input items ih =>
    intro rowTy h
    obtain ⟨row, hrow, h⟩ := Result.bind_eq_ok.1 h
    obtain ⟨outs, houts, h⟩ := Result.bind_eq_ok.1 h
    cases h
    rw [kindsPlan, List.map_map]
    refine map_column (Result.mapM_eq_ok.1 houts) (fun a s hs => ?_)
    obtain ⟨ty, _, hs⟩ := Result.bind_eq_ok.1 hs
    cases hs
    rfl
  | sort input keys ih =>
    intro rowTy h
    obtain ⟨row, hrow, h⟩ := Result.bind_eq_ok.1 h
    obtain ⟨_, _, h⟩ := Result.bind_eq_ok.1 h
    cases h
    exact ih hrow
  | distinct input ih => exact ih
  | limit input limit offset ih => exact ih
  | cursor input token ih => exact ih

/-- A select returns what its schema declares, as long as the schema declares what the executor
can return. -/
theorem validated_select_preserves (fx : Intrinsics) (schema : SchemaView) (snap : CatSnapshot)
    (select : Select) (plan : Plan) (output : List OutputColumn) (rel : Relation)
    (hvalid : validateSelect select schema = .ok output) (hplan : lower select = .ok plan)
    (hdecl : Declares schema plan output) (hsnap : SnapshotFits schema snap)
    (hrun : execute fx snap plan = .ok rel) : rel.Delivers output := by
  rw [validateSelect, hplan] at hvalid
  obtain ⟨plan', hplan', hvalid⟩ := Result.bind_eq_ok.1 hvalid
  cases hplan'
  obtain ⟨rowTy, hrow, hout⟩ := Result.bind_eq_ok.1 hvalid
  cases hout
  obtain ⟨hshape, hrows⟩ := execute_kinds hsnap fx hrun
  constructor
  · rw [hshape, Cols.shape, ← checkPlan_columns hrow, RowType.intoOutput, List.map_map,
      List.map_map]
    rfl
  · intro row hr
    exact forall₂_admits hdecl (hrows row hr)

theorem itemsSnapshot_fits : SnapshotFits (schemaOf itemsSnapshot) itemsSnapshot := by
  intro table image hi
  rw [itemsSnapshot, CatSnapshot.image, List.lookup_cons] at hi
  split at hi
  · next htable =>
    cases hi
    rw [beq_iff_eq.1 htable]
    refine ⟨rfl, ?_⟩
    intro entry hentry row hrow
    have hdec1 : decodePadded ⟨"items", [ColumnDef.new "id" .i64], ["id"], [], [], []⟩
        [1, 0, 2, 1, 0, 0, 0, 0, 0, 0, 0] = .ok [.i64 1] := by decide +kernel
    have hdec2 : decodePadded ⟨"items", [ColumnDef.new "id" .i64], ["id"], [], [], []⟩
        [1, 0, 2, 2, 0, 0, 0, 0, 0, 0, 0] = .ok [.i64 2] := by decide +kernel
    rcases List.mem_pair.1 hentry with rfl | rfl
    · rw [hdec1] at hrow
      cases hrow
      exact .cons ⟨(fun h => by cases h), fun k h => by cases h; rfl⟩ .nil
    · rw [hdec2] at hrow
      cases hrow
      exact .cons ⟨(fun h => by cases h), fun k h => by cases h; rfl⟩ .nil
  · cases hi

/-- The greatest item, null when there is none. -/
def greatestItem : Select :=
  .pipeline [.scan ⟨"items", none⟩, .group [] [("greatest", .agg .max (.column none "id"))],
    .project [.expr (.column none "greatest")]]

def greatestItemPlan : Plan :=
  .project (.aggregate (.scan "items" none) [] [("greatest", .agg .max (.column none "id"))])
    [.expr (.column none "greatest")]

theorem validated_select_preserves_greatest :
    Relation.Delivers ⟨⟨[⟨none, "greatest"⟩]⟩, [[.i64 2]]⟩ [⟨"greatest", some .i64, true⟩] := by
  refine validated_select_preserves integerIntrinsics (schemaOf itemsSnapshot) itemsSnapshot
    greatestItem greatestItemPlan [⟨"greatest", some .i64, true⟩] _ (by decide +kernel) rfl ?_
    itemsSnapshot_fits (by decide +kernel)
  have hkinds : kindsPlan (schemaOf itemsSnapshot) greatestItemPlan
      = [(⟨none, "greatest"⟩, ⟨true, [.i64]⟩)] := by decide +kernel
  rw [Declares, hkinds]
  exact .cons ⟨fun _ => rfl, fun k hk => .inr (congrArg some (List.mem_singleton.1 hk).symm)⟩ .nil

/-- The number of items beyond the last. -/
def itemsBeyond : Select :=
  .pipeline [.scan ⟨"items", none⟩, .«match» (.cmp .gt (.column none "id") (.literal (.i64 2))),
    .group [] [("n", .agg .count (.column none "id"))]]

def itemsBeyondPlan : Plan :=
  .aggregate (.filter (.scan "items" none) (.cmp .gt (.column none "id") (.literal (.i64 2))))
    [] [("n", .agg .count (.column none "id"))]

/-- The group of no rows is declared without nulls and has one. -/
theorem keyless_group_yields_null :
    validateSelect itemsBeyond (schemaOf itemsSnapshot)
        = .ok [⟨"id", some .i64, false⟩, ⟨"n", some .i64, false⟩] ∧
      lower itemsBeyond = .ok itemsBeyondPlan ∧
      SnapshotFits (schemaOf itemsSnapshot) itemsSnapshot ∧
      execute integerIntrinsics itemsSnapshot itemsBeyondPlan
        = .ok ⟨⟨[⟨some "items", "id"⟩, ⟨none, "n"⟩]⟩, [[.null, .i64 0]]⟩ ∧
      ¬ Relation.Delivers ⟨⟨[⟨some "items", "id"⟩, ⟨none, "n"⟩]⟩, [[.null, .i64 0]]⟩
        [⟨"id", some .i64, false⟩, ⟨"n", some .i64, false⟩] := by
  refine ⟨by decide +kernel, rfl, itemsSnapshot_fits, by decide +kernel, ?_⟩
  intro ⟨_, hrows⟩
  cases hrows _ (List.mem_singleton_self _) with
  | cons hid _ => cases hid

end Edb.Query
