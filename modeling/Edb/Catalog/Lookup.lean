import Edb.Catalog.Closure
import Edb.Catalog.Probe
import Edb.Catalog.Run
import Mathlib.Data.List.Perm.Basic

/-!
# Indexed child lookup

The children of a key are found by an index that starts with the referencing columns, or by a
scan of the rows. The two agree but for one case: a unique index has no entry for a row with a
NULL in one of its further columns (`scanChildren_agrees_iff`).
-/

namespace Edb.Catalog

open Edb.Types Edb.Lib

/-! ## Prefix bounds -/

/-- The bounds of a prefix hold every binding whose key starts with it. -/
theorem mem_rangeIn_prefix {lo t v : Bytes} {tree : TreeContents} (h : (lo ++ t, v) ∈ tree) :
    (lo ++ t, v) ∈ CatSnapshot.rangeIn lo (successor lo) tree := by
  rw [CatSnapshot.rangeIn, List.mem_filter]
  refine ⟨h, ?_⟩
  rw [Bool.and_eq_true]
  refine ⟨decide_eq_true (not_lt.1 (fun hlt => List.le_append_left hlt)), ?_⟩
  cases hs : successor lo with
  | none => rfl
  | some hi => exact decide_eq_true (lt_successor hs)

/-! ## Encoded keys -/

/-- Equal values have one encoding. -/
theorem component_congr {a b : Value} (ha : a.Keyable) (hb : b.Keyable) (h : a.eqv b = true) :
    component a = component b := by
  have hcmp : a.logicalCmp b = .eq := by simpa [Value.eqv] using h
  have := component_embeds a b ha hb [] []
  rw [hcmp, List.append_nil, List.append_nil] at this
  exact cmpBytes_eq.1 this

theorem keyable_congr {a b : Value} (hb : b.Keyable) (h : a.eqv b = true) : a.Keyable := by
  intro ha
  cases a with
  | json x =>
    cases b with
    | json y => exact hb rfl
    | _ => cases h
  | _ => cases ha

/-- Equal keys are encoded alike. -/
theorem flatMap_component_congr {as bs : List Value} (hb : ∀ v ∈ bs, v.Keyable)
    (h : valuesEqv as bs = true) :
    (∀ v ∈ as, v.Keyable) ∧ as.flatMap component = bs.flatMap component := by
  induction as generalizing bs with
  | nil =>
    cases bs with
    | nil => exact ⟨hb, rfl⟩
    | cons b bs => cases h
  | cons a as ih =>
    cases bs with
    | nil => cases h
    | cons b bs =>
      rw [valuesEqv, Bool.and_eq_true] at h
      have hkb := hb b (by simp)
      have hka := keyable_congr hkb h.1
      obtain ⟨hks, hmap⟩ := ih (fun v hv => hb v (List.mem_cons_of_mem _ hv)) h.2
      refine ⟨List.forall_mem_cons.2 ⟨hka, hks⟩, ?_⟩
      rw [List.flatMap_cons, List.flatMap_cons, component_congr hka hkb h.1, hmap]

/-- Bounds exist for keyable values only. -/
theorem prefixBounds_eq_ok {cols : List Value} {lo : Bytes} {hi : Option Bytes}
    (h : rej (ofType (prefixBounds cols)) = .ok (lo, hi)) :
    (∀ v ∈ cols, v.Keyable) ∧ lo = cols.flatMap component ∧
      hi = successor (cols.flatMap component) := by
  rw [rej_eq_ok, ofType_eq_ok] at h
  obtain ⟨hkeyable, rfl, rfl⟩ := prefixBounds_ok h
  exact ⟨hkeyable, rfl, rfl⟩

/-! ## Consistent indexes -/

/-- The entries the rows of a table contribute to an index. -/
def rowEntries (def_ : TableDef) (idx : IndexDef) : TreeContents → JobResult TreeContents
  | [] => .ok []
  | (pkKey, bytes) :: rest => do
    let row ← rej (decodePadded def_ bytes)
    let e ← entryFor def_ idx row pkKey
    let es ← rowEntries def_ idx rest
    pure (e.toList.map (fun e => (e.key, e.value)) ++ es)

/-- A tree holds exactly the entries of the rows, each once. -/
def TableImage.Holds (image : TableImage) (idx : IndexDef) (tree : TreeContents) : Prop :=
  ∃ es, rowEntries image.def_ idx image.data = .ok es ∧ tree.Perm es

/-- Every row reads, and every index has a tree that holds exactly the entries of the rows. -/
structure TableImage.Consistent (image : TableImage) : Prop where
  sorted : OrdMap.Sorted image.data
  reads : ∀ e ∈ image.data, ∃ row, decodePadded image.def_ e.2 = .ok row
  indexes : ∀ idx ∈ image.def_.indexes, ∃ tree, OrdMap.find idx.name image.indexes = some tree ∧
    OrdMap.Sorted tree ∧ image.Holds idx tree

section Consistent

variable {d : TableDef} {idx : IndexDef} {data es tree : TreeContents}

theorem entryFor_value {row : List Value} {pkKey : Bytes} {e : Entry}
    (h : entryFor d idx row pkKey = .ok (some e)) : e.value = pkKey := by
  rw [entryFor, rej_eq_ok, ofType_eq_ok, entry] at h
  split at h
  · cases h
  · obtain ⟨key, -, h⟩ := Result.bind_eq_ok.1 h
    cases h
    rfl

/-- The entries of an index are those of the stored rows. -/
theorem mem_rowEntries (h : rowEntries d idx data = .ok es) {k v : Bytes} :
    (k, v) ∈ es ↔ ∃ bytes row, (v, bytes) ∈ data ∧ decodePadded d bytes = .ok row ∧
      entryFor d idx row v = .ok (some ⟨k, v⟩) := by
  induction data generalizing es with
  | nil =>
    cases h
    simp
  | cons a data ih =>
    obtain ⟨pkKey, bytes⟩ := a
    obtain ⟨row, hrow, h⟩ := Result.bind_eq_ok.1 h
    obtain ⟨e, he, h⟩ := Result.bind_eq_ok.1 h
    obtain ⟨es', hes, h⟩ := Result.bind_eq_ok.1 h
    cases h
    rw [rej_eq_ok] at hrow
    rw [List.mem_append, ih hes]
    constructor
    · rintro (hmem | ⟨bytes', row', hmem, hrest⟩)
      · obtain ⟨x, hx, heq⟩ := List.mem_map.1 hmem
        rw [Option.mem_toList] at hx
        cases heq
        rw [hx] at he
        obtain ⟨xk, xv⟩ := x
        cases entryFor_value he
        exact ⟨bytes, row, by simp, hrow, he⟩
      · exact ⟨bytes', row', List.mem_cons_of_mem _ hmem, hrest⟩
    · rintro ⟨bytes', row', hmem, hrow', he'⟩
      rcases List.mem_cons.1 hmem with heq | hmem
      · cases heq
        cases hrow.symm.trans hrow'
        cases he.symm.trans he'
        exact .inl (by simp)
      · exact .inr ⟨bytes', row', hmem, hrow', he'⟩

/-- Every row has an entry, or none, when the entries are computed. -/
theorem rowEntries_total (h : rowEntries d idx data = .ok es) {pkKey bytes : Bytes}
    {row : List Value} (hmem : (pkKey, bytes) ∈ data) (hrow : decodePadded d bytes = .ok row) :
    ∃ e, entryFor d idx row pkKey = .ok e := by
  induction data generalizing es with
  | nil => cases hmem
  | cons a data ih =>
    obtain ⟨_, hrow', h⟩ := Result.bind_eq_ok.1 h
    obtain ⟨e, he, h⟩ := Result.bind_eq_ok.1 h
    obtain ⟨es', hes, h⟩ := Result.bind_eq_ok.1 h
    rcases List.mem_cons.1 hmem with rfl | hmem
    · cases (rej_eq_ok.1 hrow').symm.trans hrow
      exact ⟨e, he⟩
    · exact ih hes hmem

end Consistent

/-! ## The two ways of finding children -/

/-- The rows of a child that refer to key values, by a scan of all of them. -/
def scanAllChildren (s : CatState) (child : TableDef) (fk : ForeignKey) (keyVals : List Value) :
    JobResult (List (Bytes × List Value)) := do
  let image ← s.load child.name
  keepReferring child fk keyVals image.data

section Agree

variable {child : TableDef} {fk : ForeignKey} {keyVals : List Value}

/-- A scan keeps the rows that refer to the key. -/
theorem mem_keepReferring {entries : TreeContents} {rows : List (Bytes × List Value)}
    (h : keepReferring child fk keyVals entries = .ok rows) {c : Bytes × List Value} :
    c ∈ rows ↔ ∃ bytes, (c.1, bytes) ∈ entries ∧ decodePadded child bytes = .ok c.2 ∧
      optEqv (fkValues child fk c.2) (some keyVals) = true := by
  refine ⟨keepReferring_eq_ok h c, ?_⟩
  induction entries generalizing rows with
  | nil =>
    rintro ⟨bytes, hmem, -⟩
    cases hmem
  | cons e entries ih =>
    obtain ⟨row, hrow, h⟩ := Result.bind_eq_ok.1 h
    obtain ⟨kept, hkept, h⟩ := Result.bind_eq_ok.1 h
    cases h
    rintro ⟨bytes, hmem, hdec, hrefers⟩
    rcases List.mem_cons.1 hmem with rfl | hmem
    · cases (rej_eq_ok.1 hrow).symm.trans hdec
      rw [if_pos hrefers]
      exact List.mem_cons_self
    · have hc := ih hkept ⟨bytes, hmem, hdec, hrefers⟩
      split
      · exact List.mem_cons_of_mem _ hc
      · exact hc

/-- Rows that read can be scanned. -/
theorem keepReferring_total (fk : ForeignKey) (keyVals : List Value) {entries : TreeContents}
    (h : ∀ e ∈ entries, ∃ row, decodePadded child e.2 = .ok row) :
    ∃ rows, keepReferring child fk keyVals entries = .ok rows := by
  induction entries with
  | nil => exact ⟨[], rfl⟩
  | cons e entries ih =>
    obtain ⟨row, hrow⟩ := h e (by simp)
    obtain ⟨kept, hkept⟩ := ih (fun e he => h e (List.mem_cons_of_mem _ he))
    exact ⟨_, Result.bind_eq_ok.2 ⟨row, rej_eq_ok.2 hrow,
      Result.bind_eq_ok.2 ⟨kept, hkept, rfl⟩⟩⟩

/-- The values of key columns are their cells, none of them NULL. -/
theorem keyCells_eq {row : List Value} {names : List String} {vals : List Value}
    (h : keyCells child row names = some vals) :
    names.map (fun name => (CheckExpr.cell child row name).getD .null) = vals ∧
      ∀ v ∈ vals, v.isNull = false := by
  induction names generalizing vals with
  | nil =>
    cases h
    exact ⟨rfl, by simp⟩
  | cons name names ih =>
    rw [keyCells] at h
    split at h
    · cases h
    · next hnull =>
      obtain ⟨vs, hvs, rfl⟩ := Option.map_eq_some_iff.1 h
      obtain ⟨hmap, hnulls⟩ := ih hvs
      rw [List.map_cons, hmap]
      exact ⟨rfl, List.forall_mem_cons.2 ⟨Bool.not_eq_true _ ▸ hnull, hnulls⟩⟩

/-- A unique index has no entry for a row with a NULL behind the referencing columns. -/
def MissedBy (child : TableDef) (fk : ForeignKey) (idx : IndexDef) (row : List Value) : Prop :=
  idx.unique = true ∧ ∃ name ∈ idx.columns.drop fk.columns.length,
    (CheckExpr.cell child row name).getD .null = .null

/-- The entry of a row that refers to a key starts with the key, if there is one. -/
theorem entryFor_referring {idx : IndexDef} {row : List Value} {pkKey : Bytes} {e : Option Entry}
    (hcols : fk.columns.isPrefixOf idx.columns = true)
    (hrefers : optEqv (fkValues child fk row) (some keyVals) = true)
    (hkey : ∀ v ∈ keyVals, v.Keyable) (he : entryFor child idx row pkKey = .ok e) :
    (MissedBy child fk idx row ∧ e = none) ∨
      (¬ MissedBy child fk idx row ∧ ∃ t, e = some ⟨keyVals.flatMap component ++ t, pkKey⟩) := by
  obtain ⟨more, hmore⟩ := List.isPrefixOf_iff_prefix.1 hcols
  cases hvals : fkValues child fk row with
  | none =>
    rw [hvals] at hrefers
    cases hrefers
  | some vals =>
    rw [hvals] at hrefers
    obtain ⟨hmap, hnulls⟩ := keyCells_eq hvals
    obtain ⟨hks, hbytes⟩ := flatMap_component_congr hkey hrefers
    have hindex : indexCols child idx row =
        vals ++ more.map (fun name => (CheckExpr.cell child row name).getD .null) := by
      rw [indexCols, ← hmore, List.map_append, hmap]
    -- the row refers to a key without NULLs, so only the columns behind the prefix can be missing
    have hmissed : MissedBy child fk idx row ↔
        (idx.unique && (indexCols child idx row).any Value.isNull) = true := by
      have hvalsNull : vals.any Value.isNull = false := by
        rw [List.any_eq_false]
        intro v hv
        rw [hnulls v hv]
        exact Bool.false_ne_true
      rw [MissedBy, ← hmore, List.drop_left, hindex, List.any_append, hvalsNull, Bool.false_or,
        List.any_map, Bool.and_eq_true, List.any_eq_true]
      simp only [Function.comp_apply, Value.isNull_iff]
    rw [entryFor, rej_eq_ok, ofType_eq_ok, entry] at he
    by_cases hnull : (idx.unique && (indexCols child idx row).any Value.isNull) = true
    · rw [if_pos hnull] at he
      cases he
      exact .inl ⟨hmissed.2 hnull, rfl⟩
    · rw [if_neg hnull] at he
      obtain ⟨key, hencode, he⟩ := Result.bind_eq_ok.1 he
      cases he
      -- the entry starts with the bytes of the key looked for
      have hkeyable := keyable_of_encodeKey hencode
      rw [encodeKey_eq hkeyable] at hencode
      cases hencode
      refine .inr ⟨fun h => hnull (hmissed.1 h), ?_⟩
      rw [hindex, List.flatMap_append, hbytes]
      split
      · exact ⟨_, rfl⟩
      · exact ⟨_, by rw [List.append_assoc]⟩

end Agree

/-- The index a lookup takes has an entry for every row that refers to the key. -/
def TableImage.LookupCovers (image : TableImage) (fk : ForeignKey) (keyVals : List Value) : Prop :=
  ∀ idx, image.def_.indexes.find? (fun i => fk.columns.isPrefixOf i.columns) = some idx →
    (∀ v ∈ keyVals, v.Keyable) ∧ ∀ e ∈ image.data, ∀ row, decodePadded image.def_ e.2 = .ok row →
      optEqv (fkValues image.def_ fk row) (some keyVals) = true →
        ¬ MissedBy image.def_ fk idx row

section Agree

variable {s : CatState} {image : TableImage} {fk : ForeignKey} {keyVals : List Value}

/-- What a lookup by an index finds, when the key encodes. -/
theorem mem_resolveEntries (hs : OrdMap.Sorted image.data) {tree : TreeContents}
    {pkKey bytes : Bytes} :
    (pkKey, bytes) ∈ resolveEntries image.data tree ↔
      (pkKey, bytes) ∈ image.data ∧ ∃ k, (k, pkKey) ∈ tree := by
  rw [resolveEntries, List.mem_filterMap]
  constructor
  · rintro ⟨⟨k, v⟩, hmem, he⟩
    obtain ⟨bytes', hfind, heq⟩ := Option.map_eq_some_iff.1 he
    cases heq
    exact ⟨OrdMap.mem_of_find hfind, k, hmem⟩
  · rintro ⟨hmem, k, hk⟩
    refine ⟨(k, pkKey), hk, ?_⟩
    show (OrdMap.find pkKey image.data).map _ = _
    rw [(OrdMap.find_eq_some_iff hs).2 hmem]
    rfl

/-- A row that refers to the key has an entry within the bounds of the key exactly when the
index does not miss it. -/
theorem entry_in_bounds_iff (hc : image.Consistent) {idx : IndexDef} {tree : TreeContents}
    (hcols : fk.columns.isPrefixOf idx.columns = true) (hkey : ∀ v ∈ keyVals, v.Keyable)
    (hholds : image.Holds idx tree) {pkKey bytes : Bytes} {row : List Value}
    (hmem : (pkKey, bytes) ∈ image.data) (hrow : decodePadded image.def_ bytes = .ok row)
    (hrefers : optEqv (fkValues image.def_ fk row) (some keyVals) = true) :
    (∃ k, (k, pkKey) ∈ CatSnapshot.rangeIn (keyVals.flatMap component)
        (successor (keyVals.flatMap component)) tree) ↔ ¬ MissedBy image.def_ fk idx row := by
  obtain ⟨es, hes, hperm⟩ := hholds
  obtain ⟨e, he⟩ := rowEntries_total hes hmem hrow
  constructor
  · rintro ⟨k, hk⟩ hmissed
    -- the entry is of this row, since its value is the row's key
    have hin := hperm.mem_iff.1 (List.mem_of_mem_filter hk)
    obtain ⟨bytes', row', hmem', hrow', he'⟩ := (mem_rowEntries hes).1 hin
    have hsame := (OrdMap.find_eq_some_iff hc.sorted).2 hmem
    rw [(OrdMap.find_eq_some_iff hc.sorted).2 hmem'] at hsame
    cases hsame
    cases hrow.symm.trans hrow'
    rcases entryFor_referring hcols hrefers hkey he' with ⟨-, hnone⟩ | ⟨hnot, -⟩
    · cases hnone
    · exact hnot hmissed
  · intro hnot
    rcases entryFor_referring hcols hrefers hkey he with ⟨hmissed, -⟩ | ⟨-, t, rfl⟩
    · exact absurd hmissed hnot
    · have hin := (mem_rowEntries hes).2 ⟨bytes, row, hmem, hrow, he⟩
      exact ⟨_, mem_rangeIn_prefix (hperm.mem_iff.2 hin)⟩

/-- **Indexed child lookup.** In a state whose indexes are consistent with its rows, looking up
the children of a key returns the rows a scan of all of them returns if and only if the index
taken misses none of them. -/
theorem scanChildren_agrees_iff (himage : OrdMap.find image.def_.name s.tables = some image)
    (hc : image.Consistent) :
    (∃ rows all, scanChildren s image.def_ fk keyVals = .ok rows ∧
      scanAllChildren s image.def_ fk keyVals = .ok all ∧ ∀ c, c ∈ rows ↔ c ∈ all) ↔
      image.LookupCovers fk keyVals := by
  have hload : s.load image.def_.name = .ok image := CatState.load_eq_ok.2 himage
  obtain ⟨all, hall⟩ := keepReferring_total fk keyVals hc.reads
  have hscan : scanAllChildren s image.def_ fk keyVals = .ok all :=
    Result.bind_eq_ok.2 ⟨image, hload, hall⟩
  cases hidx : image.def_.indexes.find? (fun i => fk.columns.isPrefixOf i.columns) with
  | none =>
    -- no index to probe: the lookup is the scan itself
    have hchildren : scanChildren s image.def_ fk keyVals =
        keepReferring image.def_ fk keyVals image.data := by
      rw [scanChildren, hload, Result.ok_bind, hidx]
    constructor
    · intro _ idx h
      rw [hidx] at h
      cases h
    · intro _
      exact ⟨all, all, hchildren.trans hall, hscan, fun c => Iff.rfl⟩
  | some idx =>
    have hcols := List.find?_some (p := fun i : IndexDef => fk.columns.isPrefixOf i.columns) hidx
    obtain ⟨tree, htree, -, hholds⟩ := hc.indexes idx (List.mem_of_find?_eq_some hidx)
    have hread : image.indexTree idx.name = .ok tree := by
      rw [TableImage.indexTree, htree]
      rfl
    constructor
    -- a child the scan finds must be found by the probe, so its entry lies in the bounds
    · rintro ⟨rows, all', hrows, hall', hagree⟩ idx' hidx'
      cases hidx.symm.trans hidx'
      cases hscan.symm.trans hall'
      rw [scanChildren, hload, Result.ok_bind, hidx] at hrows
      obtain ⟨tree', htree', hrows⟩ := Result.bind_eq_ok.1 hrows
      cases hread.symm.trans htree'
      obtain ⟨⟨lo, hi⟩, hbounds, hrows⟩ := Result.bind_eq_ok.1 hrows
      obtain ⟨hkey, hlo, hhi⟩ := prefixBounds_eq_ok hbounds
      subst hlo
      subst hhi
      refine ⟨hkey, ?_⟩
      intro e he row hrow hrefers
      have hin : (e.1, row) ∈ all := (mem_keepReferring hall).2 ⟨e.2, he, hrow, hrefers⟩
      obtain ⟨bytes, hmem, -⟩ := (mem_keepReferring hrows).1 ((hagree _).2 hin)
      exact (entry_in_bounds_iff hc hcols hkey hholds he hrow hrefers).1
        ((mem_resolveEntries hc.sorted).1 hmem).2
    -- the condition puts the entry of every child in the bounds, and the probe finds nothing else
    · intro hcovers
      obtain ⟨hkey, hrest⟩ := hcovers idx hidx
      have hreads : ∀ e ∈ resolveEntries image.data (CatSnapshot.rangeIn
          (keyVals.flatMap component) (successor (keyVals.flatMap component)) tree),
          ∃ row, decodePadded image.def_ e.2 = .ok row := by
        intro e he
        exact hc.reads e ((mem_resolveEntries hc.sorted).1 he).1
      obtain ⟨rows, hrows⟩ := keepReferring_total fk keyVals hreads
      refine ⟨rows, all, ?_, hscan, ?_⟩
      · rw [scanChildren, hload, Result.ok_bind, hidx]
        dsimp only
        rw [hread]
        show (rej (ofType (prefixBounds keyVals)) >>= _) = _
        rw [prefixBounds, encodeKey_eq hkey]
        exact hrows
      · intro c
        rw [mem_keepReferring hrows, mem_keepReferring hall]
        refine exists_congr (fun bytes => ?_)
        constructor
        · rintro ⟨hmem, h⟩
          exact ⟨((mem_resolveEntries hc.sorted).1 hmem).1, h⟩
        · rintro ⟨hmem, hrow, hrefers⟩
          have hnot := hrest _ hmem c.2 hrow hrefers
          have hentry := (entry_in_bounds_iff hc hcols hkey hholds hmem hrow hrefers).2 hnot
          exact ⟨(mem_resolveEntries hc.sorted).2 ⟨hmem, hentry⟩, hrow, hrefers⟩

end Agree

/-! ### Visits of a site -/

instance {K V : Type} [LinearOrder K] (l : List (K × V)) : Decidable (OrdMap.Sorted l) :=
  inferInstanceAs (Decidable (l.Pairwise (fun a b => a.1 < b.1)))

/-- The test for consistent indexes. -/
def TableImage.isConsistent (image : TableImage) : Bool :=
  decide (OrdMap.Sorted image.data) &&
    (image.data.all (fun e => (decodePadded image.def_ e.2).toOption.isSome) &&
      image.def_.indexes.all (fun idx => (OrdMap.find idx.name image.indexes).any (fun tree =>
        decide (OrdMap.Sorted tree) && (rowEntries image.def_ idx image.data).toOption.any
          (fun es => decide (tree.Perm es)))))

theorem isConsistent_sound {image : TableImage} (h : image.isConsistent = true) :
    image.Consistent := by
  rw [TableImage.isConsistent, Bool.and_eq_true, Bool.and_eq_true] at h
  obtain ⟨hsorted, hreads, hindexes⟩ := h
  refine ⟨of_decide_eq_true hsorted, ?_, ?_⟩
  · intro e he
    obtain ⟨row, hrow⟩ := Option.isSome_iff_exists.1 (List.all_eq_true.1 hreads e he)
    exact ⟨row, Result.toOption_eq_some hrow⟩
  · intro idx hidx
    obtain ⟨tree, htree, h⟩ := (Option.any_eq_true _ _).1 (List.all_eq_true.1 hindexes idx hidx)
    rw [Bool.and_eq_true] at h
    obtain ⟨es, hes, hperm⟩ := (Option.any_eq_true _ _).1 h.2
    exact ⟨tree, htree, of_decide_eq_true h.1, es, Result.toOption_eq_some hes,
      of_decide_eq_true hperm⟩

/-- Sites. -/
def sitesDef : TableDef := ⟨"sites", [ColumnDef.new "id" .i64], ["id"], [], [], []⟩

/-- A visit goes with its site. -/
def siteFk : ForeignKey := ⟨"of_site", ["site"], "sites", ["id"], .cascade, .restrict⟩

/-- Visits, with a tag that is unique within the site. -/
def visitsDef : TableDef :=
  ⟨"visits", [ColumnDef.new "id" .i64, { ColumnDef.new "site" .i64 with nullable := true },
    { ColumnDef.new "tag" .i64 with nullable := true }], ["id"], [],
    [⟨"by_site_tag", ["site", "tag"], true⟩], [siteFk]⟩

/-- One visit of a site, with a tag or none. -/
def oneVisit (tag : Value) : List JobOp :=
  [.createTable sitesDef, .createTable visitsDef, .insert "sites" [[("id", .i64 1)]],
    .insert "visits" [[("id", .i64 1), ("site", .i64 1), ("tag", tag)]]]

/-- The indexes of the visits are consistent; what the lookup and what the scan finds. -/
def visitsFound (s : CatState) : Option (List (Bytes × List Value) × List (Bytes × List Value)) :=
  (OrdMap.find "visits" s.tables).bind (fun image =>
    if image.isConsistent ∧ image.def_.name = "visits" then
      (scanChildren s image.def_ siteFk [.i64 1]).toOption.bind (fun rows =>
        (scanAllChildren s image.def_ siteFk [.i64 1]).toOption.map (fun all => (rows, all)))
    else none)

theorem visitsFound_eq_some {s : CatState} {rows all : List (Bytes × List Value)}
    (h : visitsFound s = some (rows, all)) :
    ∃ image, OrdMap.find image.def_.name s.tables = some image ∧ image.Consistent ∧
      scanChildren s image.def_ siteFk [.i64 1] = .ok rows ∧
      scanAllChildren s image.def_ siteFk [.i64 1] = .ok all := by
  obtain ⟨image, himage, h⟩ := Option.bind_eq_some_iff.1 h
  split at h
  · next htest =>
    obtain ⟨rows', hrows, h⟩ := Option.bind_eq_some_iff.1 h
    obtain ⟨all', hall, heq⟩ := Option.map_eq_some_iff.1 h
    cases heq
    refine ⟨image, ?_, isConsistent_sound htest.1, Result.toOption_eq_some hrows,
      Result.toOption_eq_some hall⟩
    rw [htest.2]
    exact himage
  · cases h

theorem oneVisit_run (tag : Value) (p : CatState → Bool)
    (h : (runJobs (fun _ _ => true) tickingEnv 9 0 .empty (oneVisit tag)).any p = true) :
    ∃ s, Run (oneVisit tag) s ∧ p s = true := by
  obtain ⟨s, hrun, hp⟩ := RunWhere.eval (C := fun _ _ _ _ => True) tickingEnv 9 (oneVisit tag) p
    (by
      intro op hop env s
      simp only [oneVisit, List.mem_cons, List.not_mem_nil, or_false] at hop
      rcases hop with rfl | rfl | rfl | rfl <;> trivial) h
  exact ⟨s, hrun.run, hp⟩

/-- A tagged visit is found by the index. -/
theorem scanChildren_agrees_tagged : ∃ s image, Run (oneVisit (.i64 5)) s ∧
    OrdMap.find image.def_.name s.tables = some image ∧ image.Consistent ∧
    image.LookupCovers siteFk [.i64 1] := by
  obtain ⟨s, hrun, htest⟩ := oneVisit_run (.i64 5)
    (fun s => (visitsFound s).any (fun found => found.1 = found.2)) (by decide +kernel)
  obtain ⟨⟨rows, all⟩, hfound, hsame⟩ := (Option.any_eq_true _ _).1 htest
  obtain ⟨image, himage, hc, hrows, hall⟩ := visitsFound_eq_some hfound
  have hsame : rows = all := of_decide_eq_true hsame
  exact ⟨s, image, hrun, himage, hc, (scanChildren_agrees_iff himage hc).1
    ⟨rows, all, hrows, hall, fun c => by rw [hsame]⟩⟩

/-- A visit without a tag refers to the site and has no entry in the index. -/
theorem untagged_visit_missed : ∃ s image, Run (oneVisit .null) s ∧
    OrdMap.find image.def_.name s.tables = some image ∧ image.Consistent ∧
    ¬ ∃ rows all, scanChildren s image.def_ siteFk [.i64 1] = .ok rows ∧
      scanAllChildren s image.def_ siteFk [.i64 1] = .ok all ∧ ∀ c, c ∈ rows ↔ c ∈ all := by
  obtain ⟨s, hrun, htest⟩ := oneVisit_run .null
    (fun s => (visitsFound s).any (fun found => found.1 = [] ∧ found.2 ≠ [])) (by decide +kernel)
  obtain ⟨⟨rows, all⟩, hfound, htest⟩ := (Option.any_eq_true _ _).1 htest
  obtain ⟨image, himage, hc, hrows, hall⟩ := visitsFound_eq_some hfound
  obtain ⟨hnone, hsome⟩ : rows = [] ∧ all ≠ [] := of_decide_eq_true htest
  refine ⟨s, image, hrun, himage, hc, ?_⟩
  rintro ⟨rows', all', hrows', hall', hagree⟩
  cases hrows.symm.trans hrows'
  cases hall.symm.trans hall'
  obtain ⟨c, hc⟩ := List.exists_mem_of_ne_nil all hsome
  have hin := (hagree c).2 hc
  rw [hnone] at hin
  cases hin

end Edb.Catalog
