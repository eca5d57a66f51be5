import Edb.Query.Planner

/-!
# When the planned execution returns

A conjunct that moves below a join is evaluated of rows that the reference pairs with none, so it
may fail there. A planned execution returns exactly when every conjunct has a value of each row that
reaches the place it was moved to (`planned_returns_iff`); it then returns what the reference does.
-/

namespace Edb.Query

open Edb.Lib Edb.Types Edb.Proto Edb.Catalog

/-! ## Rows that reach a filter -/

/-- A predicate has a value of a row. -/
def decides (fx : Intrinsics) (shape : Shape) (pred : Expr) (row : Row) : Bool :=
  (eval fx row shape pred).toOption.isSome

theorem decides_iff {fx : Intrinsics} {shape : Shape} {pred : Expr} {row : Row} :
    decides fx shape pred row = true ↔ Decided fx shape row pred := by
  rw [decides, Decided, Option.isSome_iff_exists]
  exact exists_congr fun v => ⟨Result.toOption_eq_some, fun h => by rw [h]; rfl⟩

/-- The equalities that the access path for a filter over a table consumes. -/
def lookedUp (def_ : TableDef) (qualifier : String) (pred : Expr) : List Equality :=
  let eqs := equalities (flattenAnd pred) qualifier
  let key := covered eqs def_.pk
  if !def_.pk.isEmpty && key.length == def_.pk.length then key
  else (bestIndex eqs def_.indexes none).elim [] Prod.snd

/-- The conjuncts of a filter placed over a plan have a value of every row that reaches them: the
rows an access path yields, the rows of a side of a join, the pairs that the sides leave. -/
def decidedOver (fx : Intrinsics) (snap : CatSnapshot) : Plan → Expr → Bool
  | .scan table alias_, pred =>
    (snap.image table).toOption.all (fun image =>
      let shape := tableShape image.def_ (alias_.getD table)
      let es := lookedUp image.def_ (alias_.getD table) pred
      (image.data.map image.rowAt).all (fun row =>
        !es.all (Equality.meets image.def_ row) ||
          (residual (flattenAnd pred) es).all (fun c => decides fx shape c row)))
  | .join kind left right on, pred =>
    let rel := meaning fx snap (.join kind left right on)
    if kind = .left then rel.rows.all (decides fx rel.shape pred)
    else
      match exposed (schemaOf snap) left, exposed (schemaOf snap) right with
      | .ok leftCols, .ok rightCols =>
        let toLeft := (flattenAnd pred).filter (refersOnlyTo leftCols)
        let rest := (flattenAnd pred).filter (fun c => !refersOnlyTo leftCols c)
        let toRight := rest.filter (refersOnlyTo rightCols)
        let keep := rest.filter (fun c => !refersOnlyTo rightCols c)
        (toLeft.isEmpty || decidedOver fx snap left (andOf toLeft)) &&
          (toRight.isEmpty || decidedOver fx snap right (andOf toRight)) &&
          rel.rows.all (fun row =>
            !(allHold fx rel.shape toLeft row && allHold fx rel.shape toRight row) ||
              keep.all (fun c => decides fx rel.shape c row))
      | _, _ => true
  | input, pred =>
    let rel := meaning fx snap input
    rel.rows.all (decides fx rel.shape pred)

/-- At every filter of a plan, the conjuncts have a value of the rows that reach them where the
planner puts them. -/
def pushesDecided (fx : Intrinsics) (snap : CatSnapshot) : Plan → Bool
  | .filter input pred => pushesDecided fx snap input &&
      (optimize (schemaOf snap) input).toOption.all (fun input => decidedOver fx snap input pred)
  | .join _ left right _ => pushesDecided fx snap left && pushesDecided fx snap right
  | .aggregate input _ _ => pushesDecided fx snap input
  | .project input _ => pushesDecided fx snap input
  | .distinct input => pushesDecided fx snap input
  | .sort input _ => pushesDecided fx snap input
  | .limit input _ _ => pushesDecided fx snap input
  | .cursor input _ => pushesDecided fx snap input
  | _ => true

section

variable {fx : Intrinsics} {snap : CatSnapshot}

/-! ## Index selection -/

/-- A filter of conjuncts returns exactly when they have values. -/
theorem execute_wrapFilter_iff {input : Plan} {conjuncts : List Expr} {rel : Relation}
    (h : execute fx snap input = .ok rel) :
    (∃ out, execute fx snap (wrapFilter input conjuncts) = .ok out) ↔
      ∀ row ∈ rel.rows, ∀ c ∈ conjuncts, Decided fx rel.shape row c := by
  constructor
  · rintro ⟨out, hout⟩ row hrow c hc
    rw [wrapFilter, if_neg (by simpa using List.ne_nil_of_mem hc)] at hout
    obtain ⟨inner, hinner, hrows⟩ := Result.bind_eq_ok.1 hout
    cases h.symm.trans hinner
    obtain ⟨rows, hrows, -⟩ := Result.bind_eq_ok.1 hrows
    exact (decided_andOf conjuncts).1 (((filterRows_eq_ok fx).1 hrows).1 row hrow) c hc
  · exact fun hdec => ⟨_, execute_wrapFilter h hdec⟩

theorem residual_nil (conjuncts : List Expr) : residual conjuncts [] = conjuncts := by
  rw [residual, List.filter_eq_self.2 (fun _ _ => by simp), List.zipIdx_map_fst]

/-- An access path returns exactly when what it leaves to a filter has a value of each row it
yields. -/
theorem accessPath_returns_iff {table : String} {image : TableImage} {alias_ : Option String}
    {pred : Expr} (hi : snap.image table = .ok image) (hs : image.Served)
    (h : answers image (alias_.getD table) pred = true) :
    (∃ out, execute fx snap (accessPath image.def_ table alias_ pred) = .ok out) ↔
      decidedOver fx snap (.scan table alias_) pred = true := by
  have hover : decidedOver fx snap (.scan table alias_) pred = true ↔
      ∀ row ∈ (image.data.map image.rowAt).filter (fun row =>
        (lookedUp image.def_ (alias_.getD table) pred).all (Equality.meets image.def_ row)),
        ∀ c ∈ residual (flattenAnd pred) (lookedUp image.def_ (alias_.getD table) pred),
          Decided fx (tableShape image.def_ (alias_.getD table)) row c := by
    rw [decidedOver, hi]
    show List.all _ _ = true ↔ _
    simp only [List.all_eq_true, List.mem_filter, Bool.or_eq_true, Bool.not_eq_true', and_imp,
      decides_iff]
    refine forall₂_congr (fun row _ => ?_)
    rw [← Bool.not_eq_true, ← imp_iff_not_or, List.all_eq_true]
  rw [hover, accessPath]
  rw [answers] at h
  split at h
  · next hpk =>
    rw [show lookedUp image.def_ (alias_.getD table) pred = _ from if_pos hpk, if_pos hpk]
    rw [Bool.and_eq_true, beq_iff_eq] at hpk
    have hcols : (covered (equalities (flattenAnd pred) (alias_.getD table)) image.def_.pk).map
        Equality.column = image.def_.pk :=
      covered_columns.eq_of_length (by rw [List.length_map, hpk.2])
    have hlookup : execute fx snap (.pkLookup table alias_ _) = _ :=
      pkLookup_eq hi hs alias_ hcols (List.all_eq_true.1 h)
    exact execute_wrapFilter_iff hlookup
  · next hpk =>
    rw [show lookedUp image.def_ (alias_.getD table) pred = _ from if_neg hpk, if_neg hpk]
    cases hbest : bestIndex (equalities (flattenAnd pred) (alias_.getD table))
        image.def_.indexes none with
    | none =>
      -- nothing is looked up: the whole filter stays over the scan
      have hscan : execute fx snap (.scan table alias_) = _ := scan_eq hi hs alias_
      have hrow : ∀ row, (∀ c ∈ flattenAnd pred, Decided fx
          (tableShape image.def_ (alias_.getD table)) row c) ↔
            Decided fx (tableShape image.def_ (alias_.getD table)) row pred :=
        fun row => (decided_flattenAnd pred).symm
      rw [Option.elim_none, residual_nil]
      simp only [List.all_nil, List.filter_true, hrow]
      constructor
      · rintro ⟨out, hout⟩
        obtain ⟨inner, hinner, hrows⟩ := Result.bind_eq_ok.1 hout
        cases hscan.symm.trans hinner
        obtain ⟨rows, hrows, -⟩ := Result.bind_eq_ok.1 hrows
        exact ((filterRows_eq_ok fx).1 hrows).1
      · exact fun hdec => ⟨_, Result.bind_eq_ok.2 ⟨_, hscan, Result.bind_eq_ok.2
          ⟨_, (filterRows_eq_ok fx).2 ⟨hdec, rfl⟩, rfl⟩⟩⟩
    | some best =>
      obtain ⟨index, hit⟩ := best
      rw [hbest] at h
      change (hit.all _ && _) = true at h
      rw [Bool.and_eq_true] at h
      rcases bestIndex_eq_some hbest with heq | ⟨idx, hidx, rfl, rfl, hne⟩
      · cases heq
      · rw [find_index hs.wellFormed.indexNames hidx] at h
        have hprobe : execute fx snap (.indexScan table alias_ idx.name _) = _ :=
          indexScan_eq hi hs alias_ hidx covered_columns hne (List.all_eq_true.1 h.1) h.2
        exact execute_wrapFilter_iff hprobe

/-! ## Filters over a plan -/

theorem filter_returns_iff {input : Plan} {pred : Expr} {rel : Relation}
    (h : execute fx snap input = .ok rel) :
    (∃ out, execute fx snap (.filter input pred) = .ok out) ↔
      rel.rows.all (decides fx rel.shape pred) = true := by
  rw [List.all_eq_true]
  constructor
  · rintro ⟨out, hout⟩ row hrow
    obtain ⟨inner, hinner, hrows⟩ := Result.bind_eq_ok.1 hout
    cases h.symm.trans hinner
    obtain ⟨rows, hrows, -⟩ := Result.bind_eq_ok.1 hrows
    exact decides_iff.2 (((filterRows_eq_ok fx).1 hrows).1 row hrow)
  · intro hdec
    exact ⟨_, Result.bind_eq_ok.2 ⟨_, h, Result.bind_eq_ok.2
      ⟨_, (filterRows_eq_ok fx).2 ⟨fun row hrow => decides_iff.1 (hdec row hrow), rfl⟩, rfl⟩⟩⟩

/-- A side that returns does so still when what is pushed there is decided. -/
theorem pushSide_returns_iff {place : Expr → CatResult Plan} {side out : Plan}
    {conjuncts : List Expr} {decided : Bool} {rel : Relation}
    (hside : execute fx snap side = .ok rel) (h : pushSide place side conjuncts = .ok out)
    (hplace : place (andOf conjuncts) = .ok out →
      ((∃ rel, execute fx snap out = .ok rel) ↔ decided = true)) :
    (∃ rel, execute fx snap out = .ok rel) ↔ (conjuncts.isEmpty || decided) = true := by
  rw [pushSide] at h
  split at h
  · next hnil =>
    cases h
    rw [hnil, Bool.true_or]
    exact iff_of_true ⟨_, hside⟩ rfl
  · next hne =>
    rw [eq_false_of_ne_true hne, Bool.false_or]
    exact hplace h

theorem join_returns_iff {kind : JoinKind} {left right : Plan} {on : Option Expr} :
    (∃ rel, execute fx snap (.join kind left right on) = .ok rel) ↔
      (∃ l, execute fx snap left = .ok l) ∧ (∃ r, execute fx snap right = .ok r) ∧
        ∀ lrow ∈ (meaning fx snap left).rows, ∀ rrow ∈ (meaning fx snap right).rows,
          OnDecided fx on ((meaning fx snap left).shape.concat (meaning fx snap right).shape)
            (lrow ++ rrow) := by
  constructor
  · rintro ⟨rel, h⟩
    obtain ⟨l, hl, h⟩ := Result.bind_eq_ok.1 h
    obtain ⟨r, hr, h⟩ := Result.bind_eq_ok.1 h
    obtain ⟨rows, hrows, -⟩ := Result.bind_eq_ok.1 h
    rw [meaning_of_execute hl, meaning_of_execute hr]
    exact ⟨⟨l, hl⟩, ⟨r, hr⟩, ((joinRows_eq_ok fx).1 hrows).1⟩
  · rintro ⟨⟨l, hl⟩, ⟨r, hr⟩, hon⟩
    rw [meaning_of_execute hl, meaning_of_execute hr] at hon
    exact ⟨_, Result.bind_eq_ok.2 ⟨l, hl, Result.bind_eq_ok.2 ⟨r, hr, Result.bind_eq_ok.2
      ⟨_, (joinRows_eq_ok fx).2 ⟨hon, rfl⟩, rfl⟩⟩⟩⟩

/-- A filter around a plan returns only if the plan does. -/
theorem returns_of_wrapFilter {input : Plan} {conjuncts : List Expr} {out : Relation}
    (h : execute fx snap (wrapFilter input conjuncts) = .ok out) :
    ∃ rel, execute fx snap input = .ok rel := by
  rw [wrapFilter] at h
  split at h
  · exact ⟨out, h⟩
  · obtain ⟨rel, hrel, -⟩ := Result.bind_eq_ok.1 h
    exact ⟨rel, hrel⟩

variable (fx) in
/-- **Placing a filter** over a plan that returns gives one that returns exactly when the conjuncts
have values of the rows that reach them. -/
theorem buildFilter_returns_iff (hs : SnapshotServed snap) {input out : Plan} {pred : Expr}
    {rel : Relation} (hexec : execute fx snap input = .ok rel)
    (hpins : pinsOver snap input pred = true)
    (h : buildFilter (schemaOf snap) input pred = .ok out) :
    (∃ rel, execute fx snap out = .ok rel) ↔ decidedOver fx snap input pred = true := by
  have hplain : ∀ {input out : Plan} {pred : Expr} {rel : Relation},
      execute fx snap input = .ok rel →
      (Except.ok (Plan.filter input pred) : CatResult Plan) = .ok out →
        ((∃ rel, execute fx snap out = .ok rel) ↔ (meaning fx snap input).rows.all
          (decides fx (meaning fx snap input).shape pred) = true) := by
    intro input out pred rel hexec h
    cases h
    rw [meaning_of_execute hexec]
    exact filter_returns_iff hexec
  induction input generalizing pred out rel with
  | scan table alias_ =>
    obtain ⟨image, hi, -⟩ := scan_shape hexec
    rw [pinsOver, hi] at hpins
    rw [buildFilter, indexSelect, tableDef, schemaOf_image hi] at h
    cases h
    exact accessPath_returns_iff hi (hs table image hi) hpins
  | join kind left right on ihl ihr =>
    rw [buildFilter] at h
    rw [pinsOver] at hpins
    rw [decidedOver]
    split at h
    · next hkind =>
      rw [if_pos hkind]
      exact hplain hexec h
    · next hkind =>
      obtain ⟨⟨l, hexecl⟩, ⟨r, hexecr⟩, hon⟩ := join_returns_iff.1 ⟨rel, hexec⟩
      have hl := readable_of_execute hexecl
      have hr := readable_of_execute hexecr
      rw [if_neg hkind, exposed_eq fx hl, exposed_eq fx hr] at hpins
      rw [if_neg hkind, exposed_eq fx hl, exposed_eq fx hr]
      rw [exposed_eq fx hl, exposed_eq fx hr, Result.ok_bind, Result.ok_bind] at h
      simp only [Bool.and_eq_true] at hpins
      obtain ⟨⟨hpl, hpr⟩, hrefs⟩ := hpins
      obtain ⟨newLeft, hnewLeft, h⟩ := Result.bind_eq_ok.1 h
      obtain ⟨newRight, hnewRight, h⟩ := Result.bind_eq_ok.1 h
      cases h
      have hfiltersl := filters_side hl hnewLeft (fun h => buildFilter_filters fx hs hl hpl h)
      have hfiltersr := filters_side hr hnewRight (fun h => buildFilter_filters fx hs hr hpr h)
      have hsides := filters_sides hs hkind on hl (fun c hc => (List.mem_filter.1 hc).2)
        (fun c hc ref href => by
          have hc := List.all_eq_true.1 (List.all_eq_true.1 hrefs c hc) ref href
          simpa using hc) hfiltersl hfiltersr
      have hreturnsl := pushSide_returns_iff hexecl hnewLeft (fun h => ihl hexecl hpl h)
      have hreturnsr := pushSide_returns_iff hexecr hnewRight (fun h => ihr hexecr hpr h)
      -- the pairs that the sides leave are among the pairs that were joined
      have hon' : ∀ lrow ∈ (meaning fx snap newLeft).rows,
          ∀ rrow ∈ (meaning fx snap newRight).rows, OnDecided fx on
            ((meaning fx snap newLeft).shape.concat (meaning fx snap newRight).shape)
              (lrow ++ rrow) := by
        rw [hfiltersl.means, hfiltersr.means]
        exact fun lrow hlrow rrow hrrow =>
          hon lrow (List.mem_filter.1 hlrow).1 rrow (List.mem_filter.1 hrrow).1
      simp only [Bool.and_eq_true]
      rw [← hreturnsl, ← hreturnsr]
      constructor
      · rintro ⟨out, hout⟩
        obtain ⟨inner, hinner⟩ := returns_of_wrapFilter hout
        obtain ⟨hokl, hokr, -⟩ := join_returns_iff.1 ⟨inner, hinner⟩
        have hkeep := (execute_wrapFilter_iff hinner).1 ⟨out, hout⟩
        rw [← meaning_of_execute hinner, hsides.means] at hkeep
        refine ⟨⟨hokl, hokr⟩, List.all_eq_true.2 (fun row hrow => ?_)⟩
        rw [Bool.or_eq_true, Bool.not_eq_true', ← Bool.not_eq_true, ← imp_iff_not_or,
          List.all_eq_true]
        exact fun hmeets c hc =>
          decides_iff.2 (hkeep row (List.mem_filter.2 ⟨hrow, hmeets⟩) c hc)
      · rintro ⟨⟨hokl, hokr⟩, hkeep⟩
        obtain ⟨inner, hinner⟩ := join_returns_iff.2 ⟨hokl, hokr, hon'⟩
        refine (execute_wrapFilter_iff hinner).2 ?_
        rw [← meaning_of_execute hinner, hsides.means]
        intro row hrow c hc
        obtain ⟨hrow, hmeets⟩ := List.mem_filter.1 hrow
        have hrow := List.all_eq_true.1 hkeep row hrow
        rw [hmeets, Bool.not_true, Bool.false_or, List.all_eq_true] at hrow
        exact decides_iff.1 (hrow c hc)
  | _ => exact hplain hexec h

/-! ## Joins that filters move through -/

variable (fx snap) in
/-- The conditions of the joins at the top of a plan have a value of every pair of their sides. -/
def JoinsDecided : Plan → Prop
  | .join _ left right on => JoinsDecided left ∧ JoinsDecided right ∧
      ∀ lrow ∈ (meaning fx snap left).rows, ∀ rrow ∈ (meaning fx snap right).rows,
        OnDecided fx on ((meaning fx snap left).shape.concat (meaning fx snap right).shape)
          (lrow ++ rrow)
  | _ => True

/-- A side returned if it does with what is pushed there. -/
theorem returns_of_pushSide {place : Expr → CatResult Plan} {side out : Plan}
    {conjuncts : List Expr} {rel : Relation} (h : pushSide place side conjuncts = .ok out)
    (hout : execute fx snap out = .ok rel)
    (hplace : place (andOf conjuncts) = .ok out → execute fx snap out = .ok rel →
      ∃ rel, execute fx snap side = .ok rel) : ∃ rel, execute fx snap side = .ok rel := by
  rw [pushSide] at h
  split at h
  · cases h
    exact ⟨rel, hout⟩
  · exact hplace h hout

/-- What a filter is placed over returns if the filter does there. -/
theorem returns_of_buildFilter {input out : Plan} {pred : Expr} {rel : Relation}
    (hread : Readable fx snap input) (hjoins : JoinsDecided fx snap input)
    (h : buildFilter (schemaOf snap) input pred = .ok out) (hout : execute fx snap out = .ok rel) :
    ∃ rel, execute fx snap input = .ok rel := by
  have hplain : ∀ {input out : Plan} {pred : Expr} {rel : Relation},
      (Except.ok (Plan.filter input pred) : CatResult Plan) = .ok out →
      execute fx snap out = .ok rel → ∃ rel, execute fx snap input = .ok rel := by
    intro input out pred rel h hout
    cases h
    obtain ⟨inner, hinner, -⟩ := Result.bind_eq_ok.1 hout
    exact ⟨inner, hinner⟩
  induction input generalizing pred out rel with
  | scan table alias_ => exact hread
  | join kind left right on ihl ihr =>
    rw [buildFilter] at h
    split at h
    · exact hplain h hout
    · obtain ⟨hl, hr⟩ := hread
      obtain ⟨hjoinsl, hjoinsr, hon⟩ := hjoins
      obtain ⟨leftCols, -, h⟩ := Result.bind_eq_ok.1 h
      obtain ⟨rightCols, -, h⟩ := Result.bind_eq_ok.1 h
      obtain ⟨newLeft, hnewLeft, h⟩ := Result.bind_eq_ok.1 h
      obtain ⟨newRight, hnewRight, h⟩ := Result.bind_eq_ok.1 h
      cases h
      obtain ⟨inner, hinner⟩ := returns_of_wrapFilter hout
      obtain ⟨⟨l, hokl⟩, ⟨r, hokr⟩, -⟩ := join_returns_iff.1 ⟨inner, hinner⟩
      exact join_returns_iff.2 ⟨returns_of_pushSide hnewLeft hokl (ihl hl hjoinsl),
        returns_of_pushSide hnewRight hokr (ihr hr hjoinsr), hon⟩
  | _ => exact hplain h hout

theorem joinsDecided_wrapFilter {input : Plan} {conjuncts : List Expr}
    (h : JoinsDecided fx snap input) : JoinsDecided fx snap (wrapFilter input conjuncts) := by
  rw [wrapFilter]
  split
  · exact h
  · trivial

theorem joinsDecided_accessPath {d : TableDef} {table : String} {alias_ : Option String}
    {pred : Expr} : JoinsDecided fx snap (accessPath d table alias_ pred) := by
  rw [accessPath]
  split
  · exact joinsDecided_wrapFilter trivial
  · split
    · trivial
    · exact joinsDecided_wrapFilter trivial

/-- A filter that moves to the sides leaves fewer pairs to decide. -/
theorem joinsDecided_buildFilter (hs : SnapshotServed snap) {input out : Plan} {pred : Expr}
    (hread : Readable fx snap input) (hjoins : JoinsDecided fx snap input)
    (hpins : pinsOver snap input pred = true)
    (h : buildFilter (schemaOf snap) input pred = .ok out) : JoinsDecided fx snap out := by
  induction input generalizing pred out with
  | scan table alias_ =>
    obtain ⟨def_, -, h⟩ := Result.bind_eq_ok.1 h
    cases h
    exact joinsDecided_accessPath
  | join kind left right on ihl ihr =>
    rw [buildFilter] at h
    rw [pinsOver] at hpins
    split at h
    · cases h
      trivial
    · next hkind =>
      obtain ⟨hl, hr⟩ := hread
      obtain ⟨hjoinsl, hjoinsr, hon⟩ := hjoins
      rw [if_neg hkind, exposed_eq fx hl, exposed_eq fx hr] at hpins
      rw [exposed_eq fx hl, exposed_eq fx hr, Result.ok_bind, Result.ok_bind] at h
      simp only [Bool.and_eq_true] at hpins
      obtain ⟨⟨hpl, hpr⟩, -⟩ := hpins
      obtain ⟨newLeft, hnewLeft, h⟩ := Result.bind_eq_ok.1 h
      obtain ⟨newRight, hnewRight, h⟩ := Result.bind_eq_ok.1 h
      cases h
      have hside : ∀ {place : Expr → CatResult Plan} {side out : Plan} {conjuncts : List Expr},
          JoinsDecided fx snap side → pushSide place side conjuncts = .ok out →
          (place (andOf conjuncts) = .ok out → JoinsDecided fx snap out) →
            JoinsDecided fx snap out := by
        intro place side out conjuncts hjoins h hplace
        rw [pushSide] at h
        split at h
        · cases h
          exact hjoins
        · exact hplace h
      have hfiltersl := filters_side hl hnewLeft (fun h => buildFilter_filters fx hs hl hpl h)
      have hfiltersr := filters_side hr hnewRight (fun h => buildFilter_filters fx hs hr hpr h)
      refine joinsDecided_wrapFilter ⟨hside hjoinsl hnewLeft (ihl hl hjoinsl hpl),
        hside hjoinsr hnewRight (ihr hr hjoinsr hpr), ?_⟩
      rw [hfiltersl.means, hfiltersr.means]
      exact fun lrow hlrow rrow hrrow =>
        hon lrow (List.mem_filter.1 hlrow).1 rrow (List.mem_filter.1 hrrow).1
  | _ =>
    cases h
    trivial

/-! ## Plans -/

/-- The joins of a planned plan are decided where those of the plan were. -/
theorem joinsDecided_optimize (hs : SnapshotServed snap) {plan : Plan}
    (hfits : planFits snap plan = true) : ∀ {rel : Relation} {out : Plan},
      execute fx snap plan = .ok rel → optimize (schemaOf snap) plan = .ok out →
        JoinsDecided fx snap out := by
  induction plan with
  | filter input pred ih =>
    intro rel out hexec h
    rw [planFits, Bool.and_eq_true] at hfits
    obtain ⟨inner, hinner, -⟩ := Result.bind_eq_ok.1 hexec
    obtain ⟨input', hinput, h⟩ := Result.bind_eq_ok.1 h
    obtain ⟨_, hinput', hread, -⟩ :=
      optimize_meaning fx hs (readable_of_execute hinner) hfits.1
    cases hinput.symm.trans hinput'
    have hpins := hfits.2
    rw [hinput] at hpins
    exact joinsDecided_buildFilter hs hread (ih hfits.1 hinner hinput) hpins h
  | join kind left right on ihl ihr =>
    intro rel out hexec h
    rw [planFits, Bool.and_eq_true] at hfits
    obtain ⟨⟨l, hl⟩, ⟨r, hr⟩, hon⟩ := join_returns_iff.1 ⟨rel, hexec⟩
    obtain ⟨left', hleft, h⟩ := Result.bind_eq_ok.1 h
    obtain ⟨right', hright, h⟩ := Result.bind_eq_ok.1 h
    cases h
    obtain ⟨_, hleft', -, hsamel⟩ := optimize_meaning fx hs (readable_of_execute hl) hfits.1
    obtain ⟨_, hright', -, hsamer⟩ := optimize_meaning fx hs (readable_of_execute hr) hfits.2
    cases hleft.symm.trans hleft'
    cases hright.symm.trans hright'
    refine ⟨ihl hfits.1 hl hleft, ihr hfits.2 hr hright, ?_⟩
    rw [hsamel, hsamer]
    exact hon
  | scan table alias_ =>
    intro rel out _ h
    cases h
    trivial
  | indexScan table alias_ index keyPrefix =>
    intro rel out _ h
    cases h
    trivial
  | pkLookup table alias_ key =>
    intro rel out _ h
    cases h
    trivial
  | _ =>
    intro rel out _ h
    obtain ⟨input', -, h⟩ := Result.bind_eq_ok.1 h
    cases h
    trivial

/-- A step that returns of what its input stands for returns whenever the input does. -/
theorem step_returns_iff {x : ExecResult Relation} {f : Relation → ExecResult Relation}
    {inner rel : Relation} (hsame : ∀ r, x = .ok r → r = inner) (hf : f inner = .ok rel) :
    (∃ r, (x >>= f) = .ok r) ↔ ∃ r, x = .ok r := by
  constructor
  · rintro ⟨out, hout⟩
    obtain ⟨r, hr, -⟩ := Result.bind_eq_ok.1 hout
    exact ⟨r, hr⟩
  · rintro ⟨r, hr⟩
    cases hsame r hr
    exact ⟨rel, Result.bind_eq_ok.2 ⟨_, hr, hf⟩⟩

/-- **The planned execution returns** exactly when the conjuncts of every filter have values of the
rows that reach them where the planner puts them. -/
theorem optimize_returns_iff (hs : SnapshotServed snap) {plan : Plan}
    (hfits : planFits snap plan = true) : ∀ {rel : Relation} {out : Plan},
      execute fx snap plan = .ok rel → optimize (schemaOf snap) plan = .ok out →
        ((∃ rel, execute fx snap out = .ok rel) ↔ pushesDecided fx snap plan = true) := by
  -- a planned input stands for what the input returns
  have hsame : ∀ (input : Plan) {input' : Plan} {inner : Relation}, planFits snap input = true →
      execute fx snap input = .ok inner → optimize (schemaOf snap) input = .ok input' →
        Readable fx snap input' ∧ ∀ r, execute fx snap input' = .ok r → r = inner := by
    intro input input' inner hfits hinner hinput
    obtain ⟨_, hinput', hread, hmeans⟩ :=
      optimize_meaning fx hs (readable_of_execute hinner) hfits
    cases hinput.symm.trans hinput'
    refine ⟨hread, fun r hr => ?_⟩
    rw [← meaning_of_execute hr, hmeans, meaning_of_execute hinner]
  induction plan with
  | scan table alias_ =>
    intro rel out hexec h
    cases h
    exact iff_of_true ⟨rel, hexec⟩ rfl
  | indexScan table alias_ index keyPrefix =>
    intro rel out hexec h
    cases h
    exact iff_of_true ⟨rel, hexec⟩ rfl
  | pkLookup table alias_ key =>
    intro rel out hexec h
    cases h
    exact iff_of_true ⟨rel, hexec⟩ rfl
  | filter input pred ih =>
    intro rel out hexec h
    rw [planFits, Bool.and_eq_true] at hfits
    obtain ⟨inner, hinner, -⟩ := Result.bind_eq_ok.1 hexec
    obtain ⟨input', hinput, h⟩ := Result.bind_eq_ok.1 h
    have hjoins := joinsDecided_optimize hs hfits.1 hinner hinput
    have hread := (hsame input hfits.1 hinner hinput).1
    have hpins := hfits.2
    rw [hinput] at hpins
    rw [pushesDecided, hinput, Bool.and_eq_true, ← ih hfits.1 hinner hinput]
    constructor
    · rintro ⟨r, hr⟩
      obtain ⟨r', hr'⟩ := returns_of_buildFilter hread hjoins h hr
      exact ⟨⟨r', hr'⟩, (buildFilter_returns_iff fx hs hr' hpins h).1 ⟨r, hr⟩⟩
    · rintro ⟨⟨r', hr'⟩, hdec⟩
      exact (buildFilter_returns_iff fx hs hr' hpins h).2 hdec
  | join kind left right on ihl ihr =>
    intro rel out hexec h
    rw [planFits, Bool.and_eq_true] at hfits
    obtain ⟨⟨l, hl⟩, ⟨r, hr⟩, -⟩ := join_returns_iff.1 ⟨rel, hexec⟩
    obtain ⟨left', hleft, hrest⟩ := Result.bind_eq_ok.1 h
    obtain ⟨right', hright, hout⟩ := Result.bind_eq_ok.1 hrest
    cases hout
    have hboth : planFits snap (.join kind left right on) = true := by
      rw [planFits, hfits.1, hfits.2]
      rfl
    have hjoins := joinsDecided_optimize hs hboth hexec h
    rw [pushesDecided, Bool.and_eq_true, ← ihl hfits.1 hl hleft, ← ihr hfits.2 hr hright,
      join_returns_iff]
    exact ⟨fun h => ⟨h.1, h.2.1⟩, fun h => ⟨h.1, h.2, hjoins.2.2⟩⟩
  | cursor input token =>
    intro rel out hexec
    cases hexec
  -- every other operator returns of what its input returns
  | aggregate input by_ aggs ih =>
    intro rel out hexec h
    obtain ⟨inner, hinner, hexec⟩ := Result.bind_eq_ok.1 hexec
    obtain ⟨input', hinput, h⟩ := Result.bind_eq_ok.1 h
    cases h
    rw [pushesDecided, ← ih hfits hinner hinput]
    exact step_returns_iff (hsame input hfits hinner hinput).2 hexec
  | project input items ih =>
    intro rel out hexec h
    obtain ⟨inner, hinner, hexec⟩ := Result.bind_eq_ok.1 hexec
    obtain ⟨input', hinput, h⟩ := Result.bind_eq_ok.1 h
    cases h
    rw [pushesDecided, ← ih hfits hinner hinput]
    exact step_returns_iff (hsame input hfits hinner hinput).2 hexec
  | distinct input ih =>
    intro rel out hexec h
    obtain ⟨inner, hinner, hexec⟩ := Result.bind_eq_ok.1 hexec
    obtain ⟨input', hinput, h⟩ := Result.bind_eq_ok.1 h
    cases h
    rw [pushesDecided, ← ih hfits hinner hinput]
    exact step_returns_iff (hsame input hfits hinner hinput).2 hexec
  | sort input keys ih =>
    intro rel out hexec h
    obtain ⟨inner, hinner, hexec⟩ := Result.bind_eq_ok.1 hexec
    obtain ⟨input', hinput, h⟩ := Result.bind_eq_ok.1 h
    cases h
    rw [pushesDecided, ← ih hfits hinner hinput]
    exact step_returns_iff (hsame input hfits hinner hinput).2 hexec
  | limit input limit offset ih =>
    intro rel out hexec h
    obtain ⟨inner, hinner, hexec⟩ := Result.bind_eq_ok.1 hexec
    obtain ⟨input', hinput, h⟩ := Result.bind_eq_ok.1 h
    cases h
    rw [pushesDecided, ← ih hfits hinner hinput]
    exact step_returns_iff (hsame input hfits hinner hinput).2 hexec

end

/-- **When the planner preserves meaning.** Over tables that can be read by their indexes, and for a
plan whose filters fit, the planned execution returns what the reference does exactly when the
conjuncts of every filter have values of the rows that reach them where the planner puts them. -/
theorem planned_returns_iff (fx : Intrinsics) {snap : CatSnapshot} (hs : SnapshotServed snap)
    {logical : Plan} {rel : Relation} (hfits : planFits snap logical = true)
    (hexec : execute fx snap logical = .ok rel) :
    (∃ physical, plan logical (schemaOf snap) = .ok physical ∧
      execute fx snap physical = .ok rel) ↔ pushesDecided fx snap logical = true := by
  obtain ⟨physical, hplan, hreturns⟩ := plan_preserves hs hfits hexec
  rw [← optimize_returns_iff hs hfits hexec hplan]
  constructor
  · rintro ⟨physical', hplan', h⟩
    cases hplan.symm.trans hplan'
    exact ⟨rel, h⟩
  · rintro ⟨rel', h⟩
    rcases hreturns with hreturns | ⟨-, e, he⟩
    · exact ⟨physical, hplan, hreturns⟩
    · cases h.symm.trans he

/-- The coats of the guest with the id 2, looked up and probed for. -/
theorem planned_returns_coats : ∃ s rel physical, RunWhere KeepsServed seated s ∧
    rel.rows = [[.i64 2, .i64 2, .i64 2, .i64 2]] ∧
    plan coatsOfGuest (schemaOf s.snapshot) = .ok physical ∧
    execute integerIntrinsics s.snapshot physical = .ok rel := by
  obtain ⟨s, hrun, htest⟩ := RunWhere.eval tickingEnv 9 seated
    (fun s : CatState => planFits s.snapshot coatsOfGuest &&
      pushesDecided integerIntrinsics s.snapshot coatsOfGuest &&
      (execute integerIntrinsics s.snapshot coatsOfGuest).toOption.any
        (fun rel : Relation => decide (rel.rows = [[.i64 2, .i64 2, .i64 2, .i64 2]])))
    meets_served_seated (by decide +kernel)
  rw [Bool.and_eq_true, Bool.and_eq_true] at htest
  obtain ⟨⟨hfits, hdec⟩, htest⟩ := htest
  obtain ⟨rel, hrel, hrows⟩ := (Option.any_eq_true _ _).1 htest
  obtain ⟨physical, hplan, hexec⟩ := (planned_returns_iff integerIntrinsics (snapshot_served hrun)
    hfits (Result.toOption_eq_some hrel)).2 hdec
  exact ⟨s, rel, physical, hrun, of_decide_eq_true hrows, hplan, hexec⟩

/-- The guest with the id two, written as a float. -/
def guestTwoPointZero : Select :=
  .pipeline [.scan ⟨"guests", none⟩,
    .match (.cmp .eq (.column none "id") (.literal (.f64 ⟨0x4000000000000000⟩)))]

/-- The reference finds the guest; the point lookup has a key no guest is stored under. -/
theorem float_key_misses_guest : ∃ s output logical rel physical out,
    RunWhere KeepsServed seated s ∧
    validateSelect guestTwoPointZero (schemaOf s.snapshot) = .ok output ∧
    lower guestTwoPointZero = .ok logical ∧
    execute integerIntrinsics s.snapshot logical = .ok rel ∧ rel.rows = [[.i64 2, .i64 2]] ∧
    plan logical (schemaOf s.snapshot) = .ok physical ∧
    execute integerIntrinsics s.snapshot physical = .ok out ∧ out.rows = [] := by
  obtain ⟨s, hrun, htest⟩ := RunWhere.eval tickingEnv 9 seated
    (fun s : CatState =>
      (validateSelect guestTwoPointZero (schemaOf s.snapshot)).toOption.isSome &&
      (lower guestTwoPointZero).toOption.any (fun logical =>
        (execute integerIntrinsics s.snapshot logical).toOption.any
            (fun rel : Relation => decide (rel.rows = [[.i64 2, .i64 2]])) &&
          (plan logical (schemaOf s.snapshot)).toOption.any (fun physical =>
            (execute integerIntrinsics s.snapshot physical).toOption.any
              (fun out : Relation => decide (out.rows = [])))))
    meets_served_seated (by decide +kernel)
  rw [Bool.and_eq_true] at htest
  obtain ⟨output, houtput⟩ := Option.isSome_iff_exists.1 htest.1
  obtain ⟨logical, hlogical, htest⟩ := (Option.any_eq_true _ _).1 htest.2
  rw [Bool.and_eq_true] at htest
  obtain ⟨rel, hrel, hrows⟩ := (Option.any_eq_true _ _).1 htest.1
  obtain ⟨physical, hphysical, htest⟩ := (Option.any_eq_true _ _).1 htest.2
  obtain ⟨out, hout, hempty⟩ := (Option.any_eq_true _ _).1 htest
  exact ⟨s, output, logical, rel, physical, out, hrun, Result.toOption_eq_some houtput,
    Result.toOption_eq_some hlogical, Result.toOption_eq_some hrel, of_decide_eq_true hrows,
    Result.toOption_eq_some hphysical, Result.toOption_eq_some hout, of_decide_eq_true hempty⟩

end Edb.Query
