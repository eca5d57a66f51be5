import Edb.Catalog.Closure
import Edb.Catalog.References
import Edb.Catalog.RowValid

/-!
# Row constraints across jobs

Rows enter the store through inserts, updates and the rewrites of a referential closure, and
old rows are read under wider definitions. Every stored row satisfies its table's
constraints, as long as no statement updates a row whose primary key the engine manages. For
a closure the invariant of the planner is that a planned rewrite is in kind and keeps its
key; NULLs and CHECKs are settled by the validation of the finished plan.
-/

namespace Edb.Catalog

open Edb.Types Edb.Lib

/-- Every stored row is valid. -/
def CatState.RowsValid (s : CatState) : Prop :=
  ∀ t image, OrdMap.find t s.tables = some image →
    ∀ e ∈ image.data, StoredValid image.def_ e.1 e.2

/-! ## Columns a closure writes -/

section SetFkColumns

variable {d : TableDef} {row : List Value}

/-- Writing values of the right kinds into columns outside the primary key. -/
theorem setFkColumns_fits {names : List String} {vals : List Value} (hrow : Fits d row)
    (hpk : ∀ name ∈ names, ∀ ci, d.colIndex name = some ci → d.isPk ci = false)
    (hvals : ∀ (j : Nat) name ci col, names[j]? = some name → d.colIndex name = some ci →
      d.columns[ci]? = some col →
        vals.getD j .null = .null ∨ CellFits col.kind (vals.getD j .null)) :
    Fits d (setFkColumns d row names vals) ∧
      pkCells d (setFkColumns d row names vals) = pkCells d row := by
  induction names generalizing row vals with
  | nil => exact ⟨hrow, rfl⟩
  | cons name names ih =>
    have htail : ∀ (j : Nat) name' ci col, names[j]? = some name' → d.colIndex name' = some ci →
        d.columns[ci]? = some col →
        vals.tail.getD j .null = .null ∨ CellFits col.kind (vals.tail.getD j .null) := by
      intro j name' ci col hj hci hcol
      have := hvals (j + 1) name' ci col (by simpa using hj) hci hcol
      cases vals with
      | nil => exact .inl rfl
      | cons v vals => exact this
    have hpk' := fun n hn => hpk n (List.mem_cons_of_mem _ hn)
    rw [setFkColumns]
    cases hci : d.colIndex name with
    | none => exact ih hrow hpk' htail
    | some ci =>
      have hset : Fits d (row.set ci (vals.headD .null)) := by
        apply hrow.set
        intro col hcol
        have := hvals 0 name ci col rfl hci hcol
        cases vals with
        | nil => exact .inl rfl
        | cons v vals => exact this
      obtain ⟨hfits, hkey⟩ := ih hset hpk' htail
      exact ⟨hfits, hkey.trans (pkCells_set (hpk name (by simp) ci hci))⟩

/-- The cells of a key are those of its columns, none of them NULL. -/
theorem keyCells_eq_some {names : List String} {vals : List Value}
    (h : keyCells d row names = some vals) :
    List.Forall₂ (fun name v => v ≠ .null ∧ CheckExpr.cell d row name = some v) names vals := by
  induction names generalizing vals with
  | nil =>
    cases h
    exact .nil
  | cons name names ih =>
    rw [keyCells] at h
    split at h
    · cases h
    · next hnull =>
      obtain ⟨vs, hvs, rfl⟩ := Option.map_eq_some_iff.1 h
      refine .cons ⟨?_, ?_⟩ (ih hvs)
      · simpa using hnull
      · cases hc : CheckExpr.cell d row name with
        | none => simp [hc] at hnull
        | some v => rfl

/-- A cell of a row that fits is of its column's kind. -/
theorem Fits.cell {name : String} {v : Value} {kind : TypeKind} (hrow : Fits d row)
    (hcell : CheckExpr.cell d row name = some v) (hkind : d.kindOf name = some kind)
    (hv : v ≠ .null) : CellFits kind v := by
  obtain ⟨ci, hci, hv'⟩ := Option.bind_eq_some_iff.1 hcell
  obtain ⟨col, hcol, rfl⟩ := Option.map_eq_some_iff.1 hkind
  rw [hci, Option.bind_some] at hcol
  exact (hrow.cells ci col v hcol hv').resolve_left hv

end SetFkColumns

/-! ## The planner keeps rewrites in kind -/

/-- The new row of an effect is in kind. -/
def CascadeEffect.Fits (s : CatState) (eff : CascadeEffect) : Prop :=
  ∀ image newRow, OrdMap.find eff.table s.tables = some image → eff.newRow = some newRow →
    Catalog.Fits image.def_ newRow

/-- A planned rewrite is in kind and keeps its key. -/
def RewriteFits (s : CatState) (r : RowRef × (List Value × List Value)) : Prop :=
  ∀ image, OrdMap.find (ofLex r.1).1 s.tables = some image →
    Fits image.def_ r.2.2 ∧ encodeKey (pkCells image.def_ r.2.2) = .ok (ofLex r.1).2

/-- What holds of a plan and the effects still to come. -/
structure PlanFits (s : CatState) (acc : Cascade × List CascadeEffect) : Prop where
  rewrites : ∀ r ∈ acc.1.rewrites, RewriteFits s r
  queue : ∀ eff ∈ acc.2, eff.Fits s

section Plan

variable {s : CatState} {child parent : TableDef} {fk : ForeignKey} {eff : CascadeEffect}
  {action : RefAction}

/-- The referencing columns a closure rewrites are outside the primary key. -/
theorem isPk_of_rewrite {image : TableImage} (hw : image.WellFormed child.name)
    (himage : image.def_ = child) (hfk : fk ∈ child.foreignKeys)
    (hrewrite : fk.onUpdate = .cascade ∨ TableDef.setsNull fk = true) :
    ∀ name ∈ fk.columns, ∀ ci, child.colIndex name = some ci → child.isPk ci = false := by
  subst himage
  intro name hname ci hci
  rcases hrewrite with hcascade | hnull
  · rw [isPk_of_colIndex hci]
    simpa using hw.cascades fk hfk hcascade name hname
  · have hnullable := (hw.def_.foreignKeys fk hfk).nullable hnull name hname ci hci
    rw [TableDef.isNullable] at hnullable
    obtain ⟨col, -, hcol⟩ := (Option.any_eq_true _ _).1 hnullable
    simpa using (Bool.and_eq_true_iff.1 hcol).2

/-- The values a rewritten child gets are of the kinds of its columns. -/
theorem rewrittenKey_fits {pimage : TableImage} (hfk : fk.Typed s child)
    (hlen : fk.columns.length = fk.parentColumns.length)
    (hparent : OrdMap.find eff.table s.tables = some pimage) (hp : fk.parent = eff.table)
    (heff : eff.Fits s) (j : Nat) (name : String) (ci : Nat) (col : ColumnDef)
    (hj : fk.columns[j]? = some name) (hci : child.colIndex name = some ci)
    (hcol : child.columns[ci]? = some col) :
    (rewrittenKey pimage.def_ fk eff action).getD j .null = .null ∨
      CellFits col.kind ((rewrittenKey pimage.def_ fk eff action).getD j .null) := by
  rw [rewrittenKey]
  split
  · split
    · next newRow hnew =>
      cases hkey : parentKeyOf pimage.def_ fk newRow with
      | none => exact .inl rfl
      | some vals =>
        right
        obtain ⟨parent', hfind, hmatch⟩ := hfk
        rw [hp] at hfind
        cases hparent.symm.trans hfind
        -- the three lists side by side at position `j`
        obtain ⟨hjc, hname⟩ := List.getElem?_eq_some_iff.1 hj
        have hcells := keyCells_eq_some hkey
        have hjp : j < fk.parentColumns.length := hlen ▸ hjc
        have hjv : j < vals.length := hcells.length_eq ▸ hjp
        obtain ⟨hnull, hcell⟩ := hcells.get hjp hjv
        have hzip : (name, fk.parentColumns[j]) ∈ fk.columns.zip fk.parentColumns := by
          rw [← hname]
          exact List.mem_iff_getElem.2 ⟨j, by simpa using ⟨hjc, hjp⟩, by simp⟩
        obtain ⟨kind, hkc, hkp⟩ := kindsMatch_iff.1 (hmatch _ hzip)
        rw [TableDef.kindOf, hci, Option.bind_some, hcol, Option.map_some] at hkc
        cases hkc
        rw [Option.getD_some, List.getD_eq_getElem?_getD, List.getElem?_eq_getElem hjv]
        exact (heff pimage newRow hparent hnew).cell hcell hkp hnull
    · exact .inl rfl
  · exact .inl rfl

/-- One child row keeps the plan in kind. -/
theorem ChildStep.fits (hs : s.WellFormed) (hrows : s.RowsValid) (c : ChildStep s s.allTables)
    {plan : Cascade} {queue : List CascadeEffect} (heff : c.eff.Fits s)
    (h : PlanFits s (plan, queue)) : PlanFits s ((c.plan plan).1, queue ++ (c.plan plan).2) := by
  obtain ⟨eff, parent, child, fk, action, oldKey, pkKey, row, hfound, hmem, hfk, hacts, hfree,
    children, hscan, hrow⟩ := c
  obtain ⟨image, himage, hchildren⟩ := scanChildren_eq_ok hscan
  obtain ⟨image', himage', hchild⟩ := hs.mem_allTables hmem
  cases himage.symm.trans himage'
  rw [hs.find_allTables] at hfound
  obtain ⟨pimage, hparent, rfl⟩ := Option.map_eq_some_iff.1 hfound
  obtain ⟨hp, hdelete, hupdate⟩ := fkAction_eq_some hacts
  have hw := hs.tables _ image himage
  -- the committed row
  obtain ⟨bytes, hbytes, hdec, -⟩ := hchildren _ hrow
  obtain ⟨row', hdec', hvalid⟩ := hrows _ image himage _ hbytes
  rw [hchild] at hdec' hvalid
  cases hdec.symm.trans hdec'
  rcases planChild_cases pimage.def_ child fk eff action plan pkKey row with
    ⟨-, heq⟩ | ⟨-, -, -, heq⟩ | ⟨-, hcase, new, heq, hnew⟩
  · rw [ChildStep.plan, heq, List.append_nil]
    exact h
  · -- doomed: the row leaves the rewrites
    rw [ChildStep.plan, heq]
    constructor
    · intro r hr
      exact h.rewrites r (List.mem_of_mem_filter hr)
    · intro e he
      rcases List.mem_append.1 he with he | he
      · exact h.queue e he
      · rw [List.mem_singleton.1 he]
        intro image newRow _ hnew
        cases hnew
  · have hrewrite : fk.onUpdate = .cascade ∨ TableDef.setsNull fk = true := by
      cases hnewRow : eff.newRow with
      | none =>
        have hact := hdelete hnewRow
        cases action with
        | restrict => exact absurd rfl hfree
        | cascade => exact absurd ⟨rfl, hnewRow⟩ hcase
        | setNull => exact .inr (by simp [TableDef.setsNull, ← hact])
      | some newRow =>
        have hact := hupdate newRow hnewRow
        cases action with
        | restrict => exact absurd rfl hfree
        | cascade => exact .inl hact.symm
        | setNull => exact .inr (by simp [TableDef.setsNull, ← hact])
    have hpk := isPk_of_rewrite hw hchild hfk hrewrite
    have hwfk := hw.def_.foreignKeys fk (hchild ▸ hfk)
    have htyped := hs.typed _ image himage fk (hchild ▸ hfk)
    rw [hchild] at htyped
    have hbase : ∀ base, Fits child base → encodeKey (pkCells child base) = .ok pkKey →
        RewriteFits s (rowRef child pkKey, (row, setFkColumns child base fk.columns
          (rewrittenKey pimage.def_ fk eff action))) := by
      intro base hbase hbkey image' himage'
      cases himage.symm.trans himage'
      obtain ⟨hfits, hcells⟩ := setFkColumns_fits hbase hpk
        (rewrittenKey_fits htyped hwfk.length hparent hp heff)
      rw [hchild]
      exact ⟨hfits, (congrArg encodeKey hcells).trans hbkey⟩
    have hnewFits : RewriteFits s (rowRef child pkKey,
        (row, rewritten pimage.def_ child fk eff action plan pkKey row)) := by
      rw [rewritten]
      cases hearlier : OrdMap.find (rowRef child pkKey) plan.rewrites with
      | none => exact hbase row hvalid.toFits hvalid.key
      | some r =>
        obtain ⟨hf, hk⟩ := h.rewrites _ (OrdMap.mem_of_find hearlier) image himage
        rw [hchild] at hf hk
        exact hbase r.2 hf hk
    rw [ChildStep.plan, heq]
    constructor
    · intro r hr
      rcases OrdMap.mem_insert hr with rfl | hr
      · exact hnewFits
      · exact h.rewrites r hr
    · intro e he
      rcases List.mem_append.1 he with he | he
      · exact h.queue e he
      · rw [hnew e he]
        intro image' newRow himage' hnewRow
        cases hnewRow
        exact (hnewFits image' himage').1

/-- A planned closure is in kind when the changes it starts from are. -/
theorem planCascade_fits {fuel : Nat} {seeds : List (String × Bytes × List Value)}
    {changes : List (String × List Value × List Value)} {plan : Cascade} (hs : s.WellFormed)
    (hrows : s.RowsValid)
    (hchanges : ∀ c ∈ changes, CascadeEffect.Fits s ⟨c.1, c.2.1, some c.2.2⟩)
    (h : planCascade s s.allTables fuel seeds changes = .ok plan) :
    ∀ r ∈ plan.rewrites, RewriteFits s r := by
  obtain ⟨hrew, hqueue⟩ := seedDeletes_eq seeds ⟨[], [], []⟩ []
  have hinit : PlanFits s ((seedDeletes (⟨[], [], []⟩, []) seeds).1,
      (seedDeletes (⟨[], [], []⟩, []) seeds).2 ++
        changes.map (fun c => ⟨c.1, c.2.1, some c.2.2⟩)) := by
    constructor
    · intro r hr
      rw [hrew] at hr
      cases hr
    · intro eff heff
      rcases List.mem_append.1 heff with heff | heff
      · rcases hqueue eff heff with heff | hnone
        · cases heff
        · intro image newRow _ hnew
          rw [hnone] at hnew
          cases hnew
      · obtain ⟨c, hc, rfl⟩ := List.mem_map.1 heff
        exact hchanges c hc
  have hfinal := planLoop_invariant (I := fun plan queue => PlanFits s (plan, queue))
    (E := CascadeEffect.Fits s)
    (fun plan eff queue hp => ⟨hp.queue eff (by simp),
      hp.rewrites, fun e he => hp.queue e (List.mem_cons_of_mem _ he)⟩)
    (fun c plan queue heff hp => c.fits hs hrows heff hp)
    (fun plan eff queue _ hp => ⟨hp.rewrites, hp.queue⟩) h hinit
  exact hfinal.rewrites

end Plan

/-! ## Row jobs keep rows valid -/

section Jobs

variable {s s' : CatState}

theorem CatState.RowsValid.edited (h : s.RowsValid) (hs : s.Edited StoredValid s') :
    s'.RowsValid := by
  intro t b hb e he
  obtain ⟨a, ha, hab⟩ := hs.back hb
  rw [hab.def_eq]
  rcases hab.rows e he with he | he
  · exact h t a ha e he
  · exact he

theorem checkNotNull_eq_ok {d : TableDef} {row : List Value} (h : checkNotNull d row = .ok ()) :
    NotNull d row := by
  intro ci hci
  have hmem : (Value.null, ci) ∈ row.zipIdx := List.mem_zipIdx_iff_getElem?.2 hci
  have hcheck := Result.forM_eq_ok.1 h _ hmem
  simpa [Value.isNull] using require_eq_ok.1 hcheck

/-- A validated plan that is in kind leaves valid rows. -/
theorem Cascade.meets_storedValid {plan : Cascade} (hs : s.WellFormed)
    (hfits : ∀ r ∈ plan.rewrites, RewriteFits s r)
    (hvalid : validateCascadeRewrites s s.allTables plan = .ok ()) :
    plan.Meets StoredValid s s.allTables := by
  intro r hr def_ hdef image bytes himage hbytes
  have hcheck := checkRewrite_of_validate hvalid r hr
  rw [checkRewrite, hdef] at hcheck
  obtain ⟨⟨⟩, hchecks, hnull⟩ := Result.bind_eq_ok.1 hcheck
  rw [hs.find_allTables] at hdef
  obtain ⟨image', himage', rfl⟩ := Option.map_eq_some_iff.1 hdef
  rw [(hs.tables _ image' himage').named] at himage
  cases himage.symm.trans himage'
  obtain ⟨hfit, hkey⟩ := hfits r hr image himage
  have hrow : RowValid image.def_ (ofLex r.1).2 r.2.2 :=
    ⟨hfit, hkey, checkNotNull_eq_ok (rej_eq_ok.1 hnull), runChecks_eq_ok (rej_eq_ok.1 hchecks)⟩
  exact hrow.stored hbytes

/-- An insert stores valid rows only. -/
theorem insert_rowsValid {env : Env} {table : String} {input : List (List (String × Value))}
    {rows : List (List Value)} (hrows : s.RowsValid)
    (h : insert env s table input = .ok (rows, s')) : s'.RowsValid := by
  apply hrows.edited
  apply insert_edited h
  intro image st _ hst
  apply Result.foldlM_invariant
    (I := fun st => ∀ r ∈ st.rows, StoredValid image.def_ r.pkKey r.bytes) hst
    (fun r hr => absurd hr List.not_mem_nil)
  intro provided _ st st' hst hstage r hr
  obtain ⟨r', hr', hrowsEq, -⟩ := stageRow_eq_ok hstage
  rw [hrowsEq, List.mem_append] at hr
  rcases hr with hr | hr
  · exact hst r hr
  · rw [List.mem_singleton.1 hr]
    obtain ⟨hfits, hnull⟩ := buildRow_eq_ok hr'.built
    have hrow : RowValid image.def_ r'.pkKey r'.row :=
      ⟨hfits, ofType_eq_ok.1 hr'.key, hnull, runChecks_eq_ok hr'.checked⟩
    exact hrow.stored hr'.encoded

variable {fuel : Nat} {table : String} {image : TableImage} {deltas : List RowDelta}
  {referential : Option Cascade}

/-- A changed row is valid when the engine manages no part of its key. -/
theorem ChangedRow.valid {d : RowDelta} (hs : s.WellFormed) (hrows : s.RowsValid)
    (himage : OrdMap.find table s.tables = some image) (hkey : image.def_.KeyUnmanaged)
    (h : ChangedRow s table image d) : RowValid image.def_ d.pkKey d.newRow := by
  obtain ⟨check, now, sets, bytes, hmem, hold, h⟩ := h
  obtain ⟨-, -, hmade⟩ := changeRow_eq_ok h
  obtain ⟨oldRow, hold', hvalid⟩ := hrows table image himage _ hmem
  cases hold.symm.trans hold'
  obtain ⟨hfits, hnull, hcells⟩ := transformRow_eq_ok (hs.tables table image himage).def_
    hmade.transformed hvalid.toFits hvalid.notNull
  refine ⟨hfits, ?_, hnull, runChecks_eq_ok hmade.checked⟩
  rw [hcells hkey]
  exact hvalid.key

theorem ChangedRow.encoded {d : RowDelta} (h : ChangedRow s table image d) :
    encodeRow d.newRow = .ok d.bytes := by
  obtain ⟨check, now, sets, bytes, -, -, h⟩ := h
  exact (changeRow_eq_ok h).2.2.encoded

/-- An update stores valid rows only, if the engine does not write into their key. -/
theorem Change.rowsValid (hs : s.WellFormed) (hrows : s.RowsValid)
    (hkey : deltas ≠ [] → image.def_.KeyUnmanaged)
    (h : Change fuel s table image deltas referential s') : s'.RowsValid := by
  have hvalid : ∀ d ∈ deltas, RowValid image.def_ d.pkKey d.newRow := by
    intro d hd
    exact (h.rows d hd).valid hs hrows h.found (hkey (List.ne_nil_of_mem hd))
  apply hrows.edited
  apply h.edited
  · intro d hd
    exact (hvalid d hd).stored (h.rows d hd).encoded
  · intro plan hplan
    have hplanned := h.planned
    rw [hplan] at hplanned
    obtain ⟨hplanned, -, hvalidated⟩ := planReferential_eq_ok hplanned
    apply Cascade.meets_storedValid hs _ hvalidated
    apply planCascade_fits hs hrows _ hplanned
    intro c hc
    obtain ⟨d, hd, rfl⟩ := List.mem_map.1 hc
    intro image' newRow himage' hnew
    cases hnew
    cases h.found.symm.trans himage'
    exact (hvalid d hd).toFits

theorem Removal.rowsValid {seeds : List (String × Bytes × List Value)} {plan : Cascade}
    (hs : s.WellFormed) (hrows : s.RowsValid) (h : Removal fuel s table seeds plan s') :
    s'.RowsValid := by
  apply hrows.edited
  apply h.edited
  apply Cascade.meets_storedValid hs _ h.validated
  exact planCascade_fits hs hrows (fun c hc => absurd hc List.not_mem_nil) h.planned

end Jobs

/-! ## Definition jobs keep rows valid -/

section Definitions

variable {s s' : CatState} {table : String}

/-- A table's image is replaced by one whose rows are valid. -/
theorem CatState.RowsValid.store {b : TableImage} (h : s.RowsValid)
    (hb : ∀ e ∈ b.data, StoredValid b.def_ e.1 e.2) : (s.store table b).RowsValid := by
  intro t image himage
  have himage := (OrdMap.find_insert _ _ _ _).symm.trans himage
  split at himage
  · cases himage
    exact hb
  · exact h t image himage

theorem createTable_rowsValid {def_ : TableDef} (hrows : s.RowsValid)
    (h : createTable s def_ = .ok s') : s'.RowsValid := by
  obtain ⟨-, -, -, htables⟩ := createTable_eq_ok h
  intro t image himage e he
  rw [htables, OrdMap.find_insert] at himage
  split at himage
  · cases himage
    cases he
  · exact hrows t image himage e he

theorem dropTable_rowsValid (hrows : s.RowsValid) (h : dropTable s table = .ok s') :
    s'.RowsValid := by
  obtain ⟨-, htables⟩ := dropTable_eq_ok h
  intro t image himage
  rw [htables, OrdMap.find_erase] at himage
  split at himage
  · cases himage
  · exact hrows t image himage

/-- A column is added with values that are valid in every row. -/
theorem addColumn_rowsValid {column : ColumnDef} (hs : s.WellFormed) (hrows : s.RowsValid)
    (h : addColumn s table column = .ok s') : s'.RowsValid := by
  obtain ⟨image, backfills, image', himage, hfresh, hback, hvalid, -, hfold, rfl⟩ :=
    addColumn_eq_ok h
  obtain ⟨hdef, hdata, -⟩ := applyBackfills_eq_ok hfold
  apply hrows.store
  intro e he
  rw [hdef]
  rw [hdata] at he
  have hcols : (image.def_.widen column).materializeImplicitIndexes.columns =
      image.def_.columns ++ [column] := rfl
  exact (hrows table image himage e he).widen hcols (hs.tables table image himage).def_
    (TableDef.validate_eq_ok hvalid) rfl rfl hfresh hback

theorem createIndex_rowsValid {index : IndexDef} (hrows : s.RowsValid)
    (h : createIndex s table index = .ok s') : s'.RowsValid := by
  obtain ⟨image, entries, tree, himage, -, -, -, -, rfl⟩ := createIndex_eq_ok h
  apply hrows.store
  intro e he
  exact (hrows table image himage e he).congr rfl rfl rfl

theorem dropIndex_rowsValid {index : String} (hrows : s.RowsValid)
    (h : dropIndex s table index = .ok s') : s'.RowsValid := by
  obtain ⟨image, pos, himage, -, -, rfl⟩ := dropIndex_eq_ok h
  apply hrows.store
  intro e he
  exact (hrows table image himage e he).congr rfl rfl rfl

end Definitions

/-! ## Every run -/

/-- No row is updated whose primary key holds a column the engine writes. -/
def UpdatesUnmanagedKeys : JobCond := fun _ _ s op =>
  match op with
  | .update table _ _ => ∀ image, OrdMap.find table s.tables = some image →
    image.def_.KeyUnmanaged
  | .updateWhere table policy => ∀ image, OrdMap.find table s.tables = some image →
    policy.Selects image.def_ image.data → image.def_.KeyUnmanaged
  | _ => True

/-- Every job whose updates meet the condition keeps the rows valid. -/
theorem rowsValid_kept : Keeps UpdatesUnmanagedKeys (fun s => s.WellFormed ∧ s.RowsValid) := by
  intro envs fuel s op out s' hb hC h hs
  refine ⟨wellFormed_kept envs fuel s op out s' hb hC h hs.1, ?_⟩
  obtain ⟨hs, hrows⟩ := hs
  cases op with
  | createTable def_ =>
    obtain ⟨s₁, h, hout⟩ := Result.bind_eq_ok.1 h
    cases hout
    exact createTable_rowsValid hrows h
  | dropTable table =>
    obtain ⟨s₁, h, hout⟩ := Result.bind_eq_ok.1 h
    cases hout
    exact dropTable_rowsValid hrows h
  | addColumn table column =>
    obtain ⟨s₁, h, hout⟩ := Result.bind_eq_ok.1 h
    cases hout
    exact addColumn_rowsValid hs hrows h
  | createIndex table index =>
    obtain ⟨s₁, h, hout⟩ := Result.bind_eq_ok.1 h
    cases hout
    exact createIndex_rowsValid hrows h
  | dropIndex table index =>
    obtain ⟨s₁, h, hout⟩ := Result.bind_eq_ok.1 h
    cases hout
    exact dropIndex_rowsValid hrows h
  | insert table rows =>
    obtain ⟨⟨rows', s₁⟩, h, hout⟩ := Result.bind_eq_ok.1 h
    cases hout
    exact insert_rowsValid hrows h
  | update table pk sets =>
    obtain ⟨⟨row, s₁⟩, h, hout⟩ := Result.bind_eq_ok.1 h
    cases hout
    -- an update stamps the managed columns, so only it needs the condition on the key
    obtain ⟨image, -, -, -, d, referential, -, h⟩ := update_eq_ok h
    exact h.rowsValid hs hrows (fun _ => hC image h.found)
  | delete table pk =>
    obtain ⟨⟨done, s₁⟩, h, hout⟩ := Result.bind_eq_ok.1 h
    cases hout
    rcases delete_eq_ok h with rfl | ⟨seeds, plan, h⟩
    · exact hrows
    · exact h.rowsValid hs hrows
  | updateWhere table policy =>
    obtain ⟨⟨count, s₁⟩, h, hout⟩ := Result.bind_eq_ok.1 h
    cases hout
    obtain ⟨image, deltas, referential, hmatch, h⟩ := updateWhere_eq_ok h
    exact h.rowsValid hs hrows (fun hne => hC image h.found (matchRows_nil hmatch hne))
  | deleteWhere table filter =>
    obtain ⟨⟨count, s₁⟩, h, hout⟩ := Result.bind_eq_ok.1 h
    cases hout
    rcases deleteWhere_eq_ok h with rfl | ⟨seeds, plan, h⟩
    · exact hrows
    · exact h.rowsValid hs hrows
  | batch specs => exact absurd rfl (hb specs)

/-- In every run that updates no row whose key the engine manages, every stored row satisfies
its table's constraints in every state. -/
theorem rows_stay_valid {ops : List JobOp} {s : CatState}
    (h : RunWhere UpdatesUnmanagedKeys ops s) : s.RowsValid := by
  have hempty : CatState.empty.RowsValid := by
    intro t image himage
    cases himage
  exact (RunWhere.induct rowsValid_kept ⟨.empty, hempty⟩ h).2

/-! ### A key the engine manages -/

/-- A table keyed by the time of its last update. -/
def stampsDef : TableDef :=
  ⟨"stamps", [{ ColumnDef.new "at" .timestamp with onUpdateNow := true }, ColumnDef.new "n" .i64],
    ["at"], [], [], []⟩

/-- Shelves with the time of their last change, which is no part of their key. -/
def shelvesDef : TableDef :=
  ⟨"shelves", [ColumnDef.new "id" .i64, { ColumnDef.new "code" .i64 with unique := true },
    { ColumnDef.new "at" .timestamp with onUpdateNow := true }], ["id"], [], [], []⟩

/-- Books that follow the code of their shelf. -/
def booksDef : TableDef :=
  ⟨"books", [ColumnDef.new "id" .i64, ColumnDef.new "shelf" .i64], ["id"], [], [],
    [⟨"on_shelf", ["shelf"], "shelves", ["code"], .cascade, .cascade⟩]⟩

/-- Every shelf gets a code ten higher. -/
def renumberShelves : RowUpdater :=
  ⟨fun _ _ => .ok true, fun _ row =>
    match row with
    | _ :: .i64 code :: _ => .ok [("code", .i64 (code + 10))]
    | _ => .ok []⟩

/-- Books are shelved, get a page count, follow their shelves and go with one of them. -/
def shelved : List JobOp :=
  [.createTable stampsDef, .insert "stamps" [[("n", .i64 7)]],
    .createTable shelvesDef, .createTable booksDef,
    .insert "shelves" ([1, 2].map (fun i : Int64 => [("id", .i64 i), ("code", .i64 i)])),
    .insert "books" ([1, 2].map (fun i : Int64 => [("id", .i64 i), ("shelf", .i64 i)])),
    .addColumn "books" { ColumnDef.new "pages" .i64 with default := some (.value (.i64 100)) },
    .updateWhere "shelves" renumberShelves, .delete "shelves" [.i64 1]]

/-- Whether a job updates no table whose key the engine manages. -/
def updatesUnmanaged (s : CatState) : JobOp → Bool
  | .update table _ _ => (OrdMap.find table s.tables).all fun image => image.def_.KeyUnmanaged
  | .updateWhere table _ => (OrdMap.find table s.tables).all fun image => image.def_.KeyUnmanaged
  | .batch _ => false
  | _ => true

theorem updatesUnmanaged_sound {env : Env} {fuel : Nat} {s : CatState} {op : JobOp}
    (h : updatesUnmanaged s op = true) : Meets UpdatesUnmanagedKeys (fun _ => env) fuel s op := by
  cases op with
  | update table pk sets =>
    intro image himage
    rw [updatesUnmanaged, himage] at h
    exact of_decide_eq_true h
  | updateWhere table policy =>
    intro image himage _
    rw [updatesUnmanaged, himage] at h
    exact of_decide_eq_true h
  | batch specs => cases h
  | _ => trivial

/-- Rows are valid beside a table keyed by the engine as long as none of its own is updated:
the one book left has followed its shelf and is read with the page count it never had. -/
theorem rows_stay_valid_stamps :
    ∃ s image, RunWhere UpdatesUnmanagedKeys shelved s ∧
      OrdMap.find "books" s.tables = some image ∧
      image.data.map (fun e => decodePadded image.def_ e.2) =
        [.ok [.i64 2, .i64 12, .i64 100]] ∧ s.RowsValid := by
  obtain ⟨s, hrun, htest⟩ := RunWhere.evalTested updatesUnmanaged tickingEnv 9 shelved
    (fun s => (OrdMap.find "books" s.tables).any (fun i =>
      i.data.map (fun e => decodePadded i.def_ e.2) = [.ok [.i64 2, .i64 12, .i64 100]]))
    (fun _ _ _ _ => updatesUnmanaged_sound) (by decide +kernel)
  obtain ⟨image, himage, hrows⟩ := (Option.any_eq_true _ _).1 htest
  exact ⟨s, image, hrun, himage, of_decide_eq_true hrows, rows_stay_valid hrun⟩

/-- Whether a stored row reads as one whose key is another. -/
def misplaced (d : TableDef) (e : Bytes × Bytes) : Bool :=
  (decodePadded d e.2).toOption.any (fun row => encodeKey (pkCells d row) ≠ .ok e.1)

/-- Updating a row whose key the engine writes leaves it stored under its old key. -/
theorem updated_key_is_misplaced : ¬ ∀ ops s, Run ops s → s.RowsValid := by
  intro hall
  obtain ⟨s, hrun, htest⟩ := RunWhere.eval (C := fun _ _ _ _ => True) tickingEnv 0
    [.createTable stampsDef, .insert "stamps" [[("n", .i64 7)]],
      .update "stamps" [.timestamp 1] [("n", .i64 8)]]
    (fun s => (OrdMap.find "stamps" s.tables).any (fun i => i.data.any (misplaced i.def_)))
    (by
      intro op hop env s
      simp only [List.mem_cons, List.not_mem_nil, or_false] at hop
      rcases hop with rfl | rfl | rfl <;> trivial)
    (by decide +kernel)
  obtain ⟨image, himage, htest⟩ := (Option.any_eq_true _ _).1 htest
  obtain ⟨e, he, htest⟩ := List.any_eq_true.1 htest
  obtain ⟨row, hrow, hvalid⟩ := hall _ s hrun.run "stamps" image himage e he
  rw [misplaced, hrow] at htest
  exact of_decide_eq_true htest hvalid.key

end Edb.Catalog
