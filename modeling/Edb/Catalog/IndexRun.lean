import Edb.Catalog.Orderly

/-!
# Indexes over whole runs

Inserts and deletes keep every index in step with its rows, whatever they cascade to: an insert
takes keys that are free, and the closure of a delete only sets cells to NULL, so that its rewrites
take no unique key. An update keeps them when its moves are apart, and definition jobs do not touch
the entries there are. So in every run whose updates are apart each index holds exactly the entries
of its table's rows (`indexes_stay_consistent`).
-/

namespace Edb.Catalog

open Edb.Types Edb.Lib

/-- Every table is indexed. -/
def CatState.Indexed (s : CatState) : Prop :=
  ∀ t a, OrdMap.find t s.tables = some a → a.Indexed

section Jobs

variable {s s' : CatState} {env : Env} {fuel : Nat} {table : String}

/-- Writes that are checked and apart in every table keep every table indexed. -/
theorem CatState.Indexed.wrote {ws : List (String × RowWrite)} (hi : s.Indexed)
    (hsame : s.SameDefs s') (hw : s.Wrote ws s')
    (hws : ∀ t a, OrdMap.find t s.tables = some a → ∃ cs rs, writesOn t ws = cs ++ rs ∧
      a.Checked cs rs ∧ MovesApart a.def_ cs rs) : s'.Indexed := by
  intro t b hb
  have hdef := hsame t
  rw [hb, Option.map_some] at hdef
  obtain ⟨a, ha, -⟩ := Option.map_eq_some_iff.1 hdef.symm
  obtain ⟨b', hb', hwrote⟩ := hw t a ha
  cases hb.symm.trans hb'
  obtain ⟨cs, rs, heq, hchecked, hapart⟩ := hws t a ha
  refine (hi t a ha).wrote hwrote (fun idx hidx => ?_)
  rw [heq]
  exact hchecked.orderly hapart hidx

/-! ## Inserts -/

/-- The entry of a new row in an index is staged. -/
theorem mem_stageEntries {image : TableImage} {row : List Value} {pkKey : Bytes}
    {taken : List (String × Bytes)} {idxs : List IndexDef} {entries : List (IndexDef × Entry)}
    (h : stageEntries image row pkKey taken idxs = .ok entries) {idx : IndexDef} {e : Entry}
    (hidx : idx ∈ idxs) (he : entryFor image.def_ idx row pkKey = .ok (some e)) :
    (idx, e) ∈ entries := by
  induction idxs generalizing entries with
  | nil => cases hidx
  | cons first idxs ih =>
    rcases stageEntries_cons.1 h with ⟨hnone, h⟩ | ⟨e', rest, hfirst, -, -, hrest, rfl⟩
    · rcases List.mem_cons.1 hidx with rfl | hidx
      · cases he.symm.trans hnone
      · exact ih h hidx
    · rcases List.mem_cons.1 hidx with rfl | hidx
      · cases he.symm.trans hfirst
        exact List.mem_cons_self
      · exact List.mem_cons_of_mem _ (ih hrest hidx)

/-- What is known of the rows staged for an insert. -/
structure StagedApart (image : TableImage) (st : Staged) : Prop where
  rows : ∀ r ∈ st.rows, OrdMap.find r.pkKey image.data = none ∧
    decodePadded image.def_ r.bytes = .ok r.row ∧
    ∃ taken, stageEntries image r.row r.pkKey taken image.def_.indexes = .ok r.entries
  keys : st.pks.Nodup
  taken : ∀ idx ∈ image.def_.indexes, idx.unique = true → ∀ r ∈ st.rows, ∀ k,
    (r.write.move image.def_ idx).Takes k → (idx.name, k) ∈ st.unique ∧
      ∃ tree, OrdMap.find idx.name image.indexes = some tree ∧ OrdMap.find k tree = none
  once : ∀ idx ∈ image.def_.indexes, idx.unique = true →
    (st.rows.map StagedRow.write).Pairwise (TakeOnce image.def_ idx)

/-- A unique key a new row takes is one of its entries. -/
theorem entry_of_takes {image : TableImage} {r : StagedRow} {taken : List (String × Bytes)}
    (h : stageEntries image r.row r.pkKey taken image.def_.indexes = .ok r.entries)
    {idx : IndexDef} (hidx : idx ∈ image.def_.indexes) (hu : idx.unique = true) {k : Bytes}
    (hk : (r.write.move image.def_ idx).Takes k) :
    (idx.name, k) ∈ (r.entries.filter (fun e => e.1.unique)).map (fun e => (e.1.name, e.2.key)) ∧
      (idx.name, k) ∉ taken ∧
      ∃ tree, OrdMap.find idx.name image.indexes = some tree ∧ OrdMap.find k tree = none := by
  have hnew : indexKey image.def_ idx r.pkKey (some r.row) = some k := hk.1
  obtain ⟨row, hrow, hentry⟩ := indexKey_eq_some.1 hnew
  cases hrow
  have hmem := mem_stageEntries h hidx hentry
  obtain ⟨-, -, hnew⟩ := stageEntries_eq_ok h _ hmem
  obtain ⟨tree, htree, hfree, hnot⟩ := hnew hu
  exact ⟨List.mem_map.2 ⟨_, List.mem_filter.2 ⟨hmem, hu⟩, rfl⟩, hnot, tree, htree, hfree⟩

/-- Rows that are staged one after the other take different keys. -/
theorem StagedApart.stage {image : TableImage} {st st' : Staged} {provided : List (String × Value)}
    (hst : StagedApart image st) (h : stageRow env s image st provided = .ok st') :
    StagedApart image st' := by
  obtain ⟨r, hr, hrows, hunique⟩ := stageRow_eq_ok h
  have htakes : ∀ idx ∈ image.def_.indexes, idx.unique = true → ∀ k,
      (r.write.move image.def_ idx).Takes k → _ :=
    fun idx hidx hu k hk => entry_of_takes hr.entries hidx hu hk
  constructor
  · rw [hrows]
    intro r' hr'
    rcases List.mem_append.1 hr' with hr' | hr'
    · exact hst.rows r' hr'
    · rw [List.mem_singleton.1 hr']
      exact ⟨hr.fresh.2, decodePadded_encodeRow hr.encoded (buildRow_eq_ok hr.built).1.length,
        st.unique, hr.entries⟩
  · rw [Staged.pks, hrows, List.map_append, List.nodup_append]
    refine ⟨hst.keys, List.nodup_singleton _, fun k hk k' hk' heq => ?_⟩
    rw [List.map_singleton, List.mem_singleton] at hk'
    exact hr.fresh.1 (hk' ▸ heq ▸ hk)
  · rw [hrows, hunique]
    intro idx hidx hu r' hr' k hk
    rcases List.mem_append.1 hr' with hr' | hr'
    · obtain ⟨hmem, hfree⟩ := hst.taken idx hidx hu r' hr' k hk
      exact ⟨List.mem_append_left _ hmem, hfree⟩
    · rw [List.mem_singleton.1 hr'] at hk
      obtain ⟨hmem, -, hfree⟩ := htakes idx hidx hu k hk
      exact ⟨List.mem_append_right _ hmem, hfree⟩
  · intro idx hidx hu
    rw [hrows, List.map_append, List.pairwise_append]
    refine ⟨hst.once idx hidx hu, List.pairwise_singleton .., fun w hw w' hw' k hk hk' => ?_⟩
    obtain ⟨r', hr', rfl⟩ := List.mem_map.1 hw
    rw [List.map_singleton, List.mem_singleton] at hw'
    subst hw'
    exact (htakes idx hidx hu k hk').2.1 (hst.taken idx hidx hu r' hr' k hk).1

/-- An insert writes the rows it staged. -/
theorem insert_wrote {input : List (List (String × Value))} {rows : List (List Value)}
    (hs : s.Sound) (h : insert env s table input = .ok (rows, s')) :
    ∃ image st, OrdMap.find table s.tables = some image ∧
      input.foldlM (stageRow env s image) ⟨[], [], startSeq s image.def_⟩ = .ok st ∧
      StagedApart image st ∧ s.SameDefs s' ∧
      s.Wrote ((st.rows.map StagedRow.write).map (fun w => (table, w))) s' := by
  obtain ⟨image, st, image', himage, hst, himage', hs'⟩ := insert_eq_ok h
  have hw := hs.wellFormed.tables table image himage
  have hapart : StagedApart image st := by
    apply Result.foldlM_invariant (I := StagedApart image) hst
    · exact ⟨fun r hr => absurd hr List.not_mem_nil, List.nodup_nil,
        fun _ _ _ r hr => absurd hr List.not_mem_nil, fun _ _ _ => .nil⟩
    · exact fun provided _ st st' hst hstage => hst.stage hstage
  have hwrote : image.Wrote (st.rows.map StagedRow.write) image' := by
    refine .foldlM himage' (fun r hr a b hdef hstep => ?_)
    obtain ⟨-, hreads, taken, hentries⟩ := hapart.rows r hr
    exact applyStaged_wrote hdef.symm (hdef ▸ hw.def_.indexNames) hentries (hdef ▸ hreads) hstep
  refine ⟨image, st, himage, hst, hapart, ?_⟩
  rw [hs']
  split
  · exact ⟨.store himage hwrote.def_, CatState.Wrote.store himage hwrote⟩
  · exact ⟨.store himage hwrote.def_, CatState.Wrote.store himage hwrote⟩

/-- Rows that are staged take keys that are free, and leave none. -/
theorem StagedApart.apart {image : TableImage} {st : Staged} (hi : image.Indexed)
    (h : StagedApart image st) :
    image.Checked (st.rows.map StagedRow.write) [] ∧
      MovesApart image.def_ (st.rows.map StagedRow.write) [] := by
  refine ⟨⟨?_, ⟨?_, .nil⟩, ?_, ?_⟩, ⟨?_, fun _ _ _ _ _ w' hw' => absurd hw' List.not_mem_nil,
    fun _ _ _ _ w' hw' => absurd hw' List.not_mem_nil⟩⟩
  · rw [List.append_nil, List.forall_mem_map]
    intro r hr
    show none = image.rows r.pkKey
    rw [TableImage.rows, (h.rows r hr).1]
    rfl
  · rw [List.map_map]
    exact h.keys
  · intro idx hidx hu
    rw [List.append_nil]
    intro w hw k hk u hkey
    obtain ⟨r, hr, rfl⟩ := List.mem_map.1 hw
    obtain ⟨-, tree, htree, hfree⟩ := h.taken idx hidx hu r hr k hk
    obtain ⟨tree', htree', hinv⟩ := hi.trees idx hidx
    cases htree.symm.trans htree'
    rw [(hinv.find_iff k u).2 hkey] at hfree
    cases hfree
  · exact fun idx hidx hu => ⟨h.once idx hidx hu, .nil⟩
  · -- a new row leaves no key
    intro idx _ _
    rw [List.append_nil, List.pairwise_map]
    refine List.pairwise_of_forall_mem_list (fun r _ r' _ k _ hk' => ?_)
    cases hk'.1

/-- An insert keeps the indexes in step with the rows. -/
theorem insert_indexed {input : List (List (String × Value))} {rows : List (List Value)}
    (hs : s.Sound) (hi : s.Indexed) (h : insert env s table input = .ok (rows, s')) :
    s'.Indexed := by
  obtain ⟨image, st, himage, -, hapart, hsame, hwrote⟩ := insert_wrote hs h
  refine hi.wrote hsame hwrote (fun t a ha => ?_)
  rw [List.map_map, Function.comp_def, writesOn_map]
  by_cases ht : table = t
  · subst ht
    cases himage.symm.trans ha
    rw [if_pos rfl]
    exact ⟨st.rows.map StagedRow.write, [], (List.append_nil _).symm,
      hapart.apart (hi table image himage)⟩
  · rw [if_neg ht]
    exact ⟨[], [], rfl, .nil a, .nil _⟩

/-! ## Deletes -/

theorem Removal.seeds {seeds : List (String × Bytes × List Value)} {plan : Cascade}
    (h : Removal fuel s table seeds plan s') : s.StoresSeeds seeds := by
  obtain ⟨image, himage, hrows⟩ := h.rows
  intro seed hseed
  obtain ⟨bytes, ht, hmem, hdec⟩ := hrows seed hseed
  refine CatState.mem_storedRows.2 ⟨(table, image), OrdMap.mem_of_find himage, _, hmem, hdec, ?_⟩
  rw [ht]

/-- A row a closure deletes is stored. -/
theorem Closing.stored {seeds done : List (String × Bytes × List Value)} {plan : Cascade}
    {waiting : List CascadeEffect} (hs : s.Sound) (hseeds : s.StoresSeeds seeds)
    (h : Closing s seeds done plan waiting) {t : String} {k : Bytes} {row : List Value}
    {a : TableImage} (ha : OrdMap.find t s.tables = some a)
    (hrow : OrdMap.find (toLex (t, k)) plan.deletes = some row) : a.rows k = some row := by
  obtain ⟨e, he, r, hr, hdec, href⟩ := CatState.mem_storedRows.1
    ((h.doomed _ _ hrow).stored hs hseeds)
  obtain ⟨rfl, rfl⟩ := Prod.mk.inj (toLex.injective href)
  cases ha.symm.trans ((OrdMap.find_eq_some_iff hs.wellFormed.sorted).2 he)
  exact (TableImage.rows_eq_some (hs.inOrder _ _ ha)).2 ⟨r.2, hr, hdec⟩

/-- A delete writes its closure. -/
theorem Removal.wrote {seeds : List (String × Bytes × List Value)} {plan : Cascade}
    (hs : s.Sound) (h : Removal fuel s table seeds plan s') :
    s.SameDefs s' ∧ s.Wrote plan.writes s' := by
  refine applyCascade_wrote hs.wellFormed.listed (fun r hr image himage => ?_) h.applied
  obtain ⟨image', hof⟩ := planCascade_rewriteOf hs.wellFormed hs.inOrder h.planned r hr
  cases himage.symm.trans hof.found
  obtain ⟨bytes, -, hdec⟩ := hof.stored
  exact hof.length.trans (decodePadded_length hdec)

/-- The rows a closure deletes in a table. -/
theorem mem_deletesOn {plan : Cascade} {t : String} {w : RowWrite}
    (hw : w ∈ writesOn t (plan.deletes.map deleteWrite)) :
    ∃ row, (toLex (t, w.pkKey), row) ∈ plan.deletes ∧ w = ⟨w.pkKey, some row, none⟩ := by
  obtain ⟨d, hd, heq⟩ := List.mem_map.1 (mem_writesOn.1 hw)
  obtain ⟨rfl, rfl⟩ := Prod.mk.inj heq
  exact ⟨d.2, hd, rfl⟩

/-- A closure writes no row twice: a row that is deleted is not rewritten. -/
theorem Removal.writes_nodup {seeds : List (String × Bytes × List Value)} {plan : Cascade}
    (hs : s.Sound) (h : Removal fuel s table seeds plan s') {t : String} {a : TableImage}
    (ha : OrdMap.find t s.tables = some a) :
    ((writesOn t (plan.deletes.map deleteWrite) ++ plan.rewritesOn t).map
      RowWrite.pkKey).Nodup := by
  have hclosing := planCascade_closing hs h.seeds h.planned
  have hsorted := planCascade_sorted h.planned
  rw [List.map_append, List.nodup_append]
  refine ⟨?_, (rewritesOn_stored hs h.planned ha).2, ?_⟩
  · rw [List.Nodup, List.pairwise_map]
    refine pairwise_writesOn (List.pairwise_map.2 (hsorted.2.imp ?_))
    intro d d' hlt ht ht' heq
    have hsame : ofLex d.1 = ofLex d'.1 := Prod.ext (ht.trans ht'.symm) heq
    exact absurd (ofLex_inj.1 hsame) (ne_of_lt hlt)
  · intro k hk k' hk' heq
    obtain ⟨w, hw, rfl⟩ := List.mem_map.1 hk
    obtain ⟨w', hw', rfl⟩ := List.mem_map.1 hk'
    obtain ⟨row, hmem, -⟩ := mem_deletesOn hw
    obtain ⟨r, hr, heq'⟩ := Cascade.mem_rewritesOn.1 hw'
    obtain ⟨rfl, rfl⟩ := Prod.mk.inj heq'
    have hnone := hclosing.apart _ (Option.isSome_iff_exists.2
      ⟨_, (OrdMap.find_eq_some_iff hsorted.2).2 hmem⟩)
    rw [heq] at hnone
    have hsome := (OrdMap.find_eq_some_iff hsorted.1).2 hr
    exact absurd (hsome.symm.trans hnone) (Option.some_ne_none _)

/-- A delete keeps the indexes in step with the rows. -/
theorem Removal.indexed {seeds : List (String × Bytes × List Value)} {plan : Cascade}
    (hs : s.Sound) (hi : s.Indexed) (h : Removal fuel s table seeds plan s') : s'.Indexed := by
  have hclosing := planCascade_closing hs h.seeds h.planned
  have hsorted := planCascade_sorted h.planned
  obtain ⟨hsame, hwrote⟩ := h.wrote hs
  refine hi.wrote hsame hwrote (fun t a ha => ?_)
  refine ⟨writesOn t (plan.deletes.map deleteWrite), plan.rewritesOn t, ?_, ?_⟩
  · rw [Cascade.writes, writesOn_append]
    rfl
  have hstored := (rewritesOn_stored hs h.planned ha).1
  refine orderly_of_takes_none (fun w hw => ?_) (h.writes_nodup hs ha)
    (fun idx hidx hu w hw k => ?_)
  · rcases List.mem_append.1 hw with hw | hw
    · obtain ⟨row, hmem, heq⟩ := mem_deletesOn hw
      rw [hclosing.stored hs h.seeds ha ((OrdMap.find_eq_some_iff hsorted.2).2 hmem), heq]
    · exact hstored w hw
  · rcases List.mem_append.1 hw with hw | hw
    · obtain ⟨row, -, heq⟩ := mem_deletesOn hw
      rw [heq]
      intro hk
      cases hk.1
    · obtain ⟨r, hr, heq⟩ := Cascade.mem_rewritesOn.1 hw
      obtain ⟨rfl, rfl⟩ := Prod.mk.inj heq
      exact (planCascade_nulled hs h.planned r hr).takes_none hu _ k

/-! ## Updates -/

/-- The moves of an update are apart, in every table it writes to. -/
def UpdateApart (s : CatState) (table : String) (deltas : List RowDelta)
    (referential : Option Cascade) : Prop :=
  ∀ t a, OrdMap.find t s.tables = some a →
    MovesApart a.def_ (if table = t then deltas.map RowDelta.write else [])
      (writesOn t ((rewritesOf referential).map rewriteWrite))

/-- An update writes the rows it changes, and then its closure. -/
theorem Change.wrote {image : TableImage} {deltas : List RowDelta}
    {referential : Option Cascade} (hs : s.Sound)
    (h : Change fuel s table image deltas referential s') :
    s.SameDefs s' ∧ s.Wrote ((deltas.map RowDelta.write).map (fun w => (table, w)) ++
      (rewritesOf referential).map rewriteWrite) s' := by
  have hw := hs.wellFormed.tables table image h.found
  obtain ⟨image', himage', happly⟩ := Result.bind_eq_ok.1 h.applied
  have hwrote : image.Wrote (deltas.map RowDelta.write) image' := by
    refine .foldlM himage' (fun d hd a b hdef hstep => ?_)
    obtain ⟨check, hmoves⟩ := (h.rows d hd).moves
    exact applyDelta_wrote (hdef ▸ hw.def_.indexNames) (hdef ▸ hmoves)
      (hdef ▸ (h.rows d hd).reads) hstep
  have hsame : s.SameDefs (s.store table image') := .store h.found hwrote.def_
  have hfirst := CatState.Wrote.store h.found hwrote
  cases referential with
  | none =>
    cases happly
    exact ⟨hsame, hfirst.trans (.refl _)⟩
  | some plan =>
    obtain ⟨hplan, -, -⟩ := planReferential_eq_ok h.planned
    have hof := planCascade_rewriteOf hs.wellFormed hs.inOrder hplan
    obtain ⟨hsame', hlater⟩ := applyCascade_wrote (hs.wellFormed.listed.same hsame)
      (fun r hr b hb => by
        obtain ⟨a, hof⟩ := hof r hr
        have hdef := hsame (ofLex r.1).1
        rw [hb, hof.found, Option.map_some, Option.map_some] at hdef
        obtain ⟨bytes, -, hdec⟩ := hof.stored
        rw [hof.length, decodePadded_length hdec, Option.some.inj hdef]) happly
    rw [Cascade.writes, planCascade_deletes hplan] at hlater
    exact ⟨hsame.trans hsame', hfirst.trans hlater⟩

/-- An update keeps the indexes in step with the rows, if its rows keep apart. -/
theorem Change.indexed {image : TableImage} {deltas : List RowDelta}
    {referential : Option Cascade} (hs : s.Sound) (hi : s.Indexed)
    (hapart : UpdateApart s table deltas referential)
    (h : Change fuel s table image deltas referential s') : s'.Indexed := by
  obtain ⟨hsame, hwrote⟩ := h.wrote hs
  refine hi.wrote hsame hwrote (fun t a ha => ⟨_, _, ?_, ?_, hapart t a ha⟩)
  · rw [writesOn_append, List.map_map, Function.comp_def, writesOn_map]
  have hfirst : a.Checked (if table = t then deltas.map RowDelta.write else []) [] := by
    by_cases ht : table = t
    · subst ht
      cases h.found.symm.trans ha
      rw [if_pos rfl]
      exact h.checked hs (hi table image ha)
    · rw [if_neg ht]
      exact .nil a
  refine hfirst.append ?_
  cases referential with
  | none => exact .nil a
  | some plan =>
    obtain ⟨hplan, -, hvalid⟩ := planReferential_eq_ok h.planned
    exact rewritesOn_checked hs (hi t a ha) hplan hvalid ha

end Jobs

/-! ## Definition jobs -/

section Definitions

variable {a b : TableImage} {idx : IndexDef} {op : JobOp} {table : String}

/-- The entries of an index that was there are those it had, whatever the definition became. -/
theorem Altered.entries (hd : a.def_.WellFormed)
    (hreads : ∀ e ∈ a.data, ∃ row, decodePadded a.def_ e.2 = .ok row) (h : Altered op table a b)
    (hidx : idx ∈ a.def_.indexes) :
    (∀ k row, b.rows k = some row → ∃ row₀, a.rows k = some row₀ ∧
      entryFor b.def_ idx row k = entryFor a.def_ idx row₀ k) ∧ b.keys idx = a.keys idx := by
  have hentries : ∀ k row, b.rows k = some row → ∃ row₀, a.rows k = some row₀ ∧
      entryFor b.def_ idx row k = entryFor a.def_ idx row₀ k := by
    intro k row hrow
    obtain ⟨bytes, hfind, hdec⟩ := Option.bind_eq_some_iff.1 hrow
    rw [h.data] at hfind
    obtain ⟨row₀, hrow₀⟩ := hreads _ (OrdMap.mem_of_find hfind)
    have hdec := Result.toOption_eq_some hdec
    refine ⟨row₀, ?_, ?_⟩
    · rw [TableImage.rows, hfind, Option.bind_some, hrow₀]
      rfl
    · rcases h.columns with hcols | ⟨column, -, hcols, -, -⟩
      · rw [decodePadded, hcols] at hdec
        cases hdec.symm.trans hrow₀
        simp only [entryFor, indexCols, CheckExpr.cell, TableDef.colIndex, hcols]
      · cases hdec.symm.trans (decodePadded_widen hcols hrow₀)
        have hcells : indexCols b.def_ idx (row₀ ++ [column.padding]) =
            indexCols a.def_ idx row₀ := by
          refine List.map_congr_left (fun name hname => ?_)
          obtain ⟨ci, hci⟩ := Option.isSome_iff_exists.1 (hd.indexColumns idx hidx name hname)
          rw [cell_widen hcols (decodePadded_length hrow₀) hci]
        rw [entryFor, entryFor, hcells]
  refine ⟨hentries, funext fun k => ?_⟩
  rw [TableImage.keys, TableImage.keys]
  cases hrow : b.rows k with
  | none =>
    -- a row that reads under the old definition reads under the new one
    have hnone : a.rows k = none := by
      by_contra hsome
      obtain ⟨row₀, hrow₀⟩ := Option.ne_none_iff_exists'.1 hsome
      obtain ⟨bytes, hfind, hdec⟩ := Option.bind_eq_some_iff.1 hrow₀
      obtain ⟨row', hrow'⟩ := h.reads (Result.toOption_eq_some hdec)
      rw [TableImage.rows, h.data, hfind, Option.bind_some, hrow'] at hrow
      cases hrow
    rw [hnone]
    rfl
  | some row =>
    obtain ⟨row₀, hrow₀, heq⟩ := hentries k row hrow
    rw [hrow₀, indexKey, indexKey, Option.bind_some, Option.bind_some, heq]

/-- Every index of a table is one it had, with its tree, or one that was filled from the rows. -/
def Carries (a b : TableImage) : Prop :=
  ∀ idx ∈ b.def_.indexes,
    (idx ∈ a.def_.indexes ∧ OrdMap.find idx.name b.indexes = OrdMap.find idx.name a.indexes) ∨
    ((∀ k row, b.rows k = some row → ∃ e, entryFor b.def_ idx row k = .ok e) ∧
      ∃ tree, OrdMap.find idx.name b.indexes = some tree ∧ Inverse.Inverts tree (b.keys idx))

theorem TableImage.Entered.altered (he : a.Entered) (hd : a.def_.WellFormed)
    (hreads : ∀ e ∈ a.data, ∃ row, decodePadded a.def_ e.2 = .ok row) (h : Altered op table a b)
    (hb : Carries a b) : b.Entered := by
  constructor
  · intro idx hidx k row hrow
    rcases hb idx hidx with ⟨hold, -⟩ | ⟨hentries, -⟩
    · obtain ⟨row₀, hrow₀, heq⟩ := (h.entries hd hreads hold).1 k row hrow
      exact heq ▸ he.entries idx hold k row₀ hrow₀
    · exact hentries k row hrow
  · intro idx hidx
    rcases hb idx hidx with ⟨hold, htree⟩ | ⟨-, tree, htree, hnew⟩
    · rw [htree]
      exact he.trees idx hold
    · exact ⟨tree, htree, hnew.sorted⟩

theorem TableImage.Indexed.altered (hi : a.Indexed) (hd : a.def_.WellFormed)
    (hreads : ∀ e ∈ a.data, ∃ row, decodePadded a.def_ e.2 = .ok row) (h : Altered op table a b)
    (hb : Carries a b) : b.Indexed := by
  refine ⟨(hi.entered.altered hd hreads h hb).entries, fun idx hidx => ?_⟩
  rcases hb idx hidx with ⟨hold, htree⟩ | ⟨-, hnew⟩
  · rw [htree, (h.entries hd hreads hold).2]
    exact hi.trees idx hold
  · exact hnew

/-- A backfill computes the entries of the rows, and no unique key twice. -/
theorem computeBackfill_eq_ok {d : TableDef} {seen : List Bytes} {data : TreeContents}
    {es : List Entry} (h : computeBackfill d idx seen data = .ok es) :
    rowEntries d idx data = .ok (es.map (fun e => (e.key, e.value))) ∧
      (idx.unique = true → (es.map Entry.key).Nodup ∧ ∀ e ∈ es, e.key ∉ seen) := by
  induction data generalizing seen es with
  | nil =>
    cases h
    exact ⟨rfl, fun _ => ⟨List.nodup_nil, fun e he => absurd he List.not_mem_nil⟩⟩
  | cons r data ih =>
    obtain ⟨pkKey, bytes⟩ := r
    obtain ⟨row, hrow, h⟩ := Result.bind_eq_ok.1 h
    obtain ⟨e?, he, h⟩ := Result.bind_eq_ok.1 h
    cases e? with
    | none =>
      obtain ⟨hrest, hnew⟩ := ih h
      exact ⟨Result.bind_eq_ok.2 ⟨row, hrow, Result.bind_eq_ok.2 ⟨none, he,
        Result.bind_eq_ok.2 ⟨_, hrest, rfl⟩⟩⟩, hnew⟩
    | some e =>
      obtain ⟨hseen, h⟩ := Result.guard_eq_ok.1 h
      obtain ⟨_, -, h⟩ := Result.bind_eq_ok.1 h
      obtain ⟨es', hes, h⟩ := Result.bind_eq_ok.1 h
      cases h
      obtain ⟨hrest, hnew⟩ := ih hes
      refine ⟨Result.bind_eq_ok.2 ⟨row, hrow, Result.bind_eq_ok.2 ⟨some e, he,
        Result.bind_eq_ok.2 ⟨_, hrest, rfl⟩⟩⟩, fun hu => ?_⟩
      obtain ⟨hnodup, hfree⟩ := hnew hu
      have hfirst : e.key ∉ seen := fun hmem => hseen (by simp [hu, hmem])
      refine ⟨List.nodup_cons.2 ⟨fun hmem => ?_, hnodup⟩, ?_⟩
      · obtain ⟨e', he', heq⟩ := List.mem_map.1 hmem
        exact hfree e' he' (heq ▸ List.mem_cons_self)
      · exact List.forall_mem_cons.2 ⟨hfirst,
          fun e' he' hmem => hfree e' he' (List.mem_cons_of_mem _ hmem)⟩

/-- A tree that is built from entries with different keys holds them. -/
theorem buildTree_eq_ok {es : List Entry} {tree : TreeContents} (h : buildTree es = .ok tree)
    (hkeys : (es.map Entry.key).Nodup) :
    OrdMap.Sorted tree ∧ ∀ k v, OrdMap.find k tree = some v ↔ ⟨k, v⟩ ∈ es := by
  induction es using List.reverseRecOn generalizing tree with
  | nil =>
    cases h
    refine ⟨OrdMap.sorted_nil, fun k v => ?_⟩
    constructor
    · intro hfind
      cases hfind
    · intro hmem
      cases hmem
  | append_singleton es e ih =>
    -- the last entry goes in last, under a key of its own
    rw [buildTree, List.foldlM_append] at h
    obtain ⟨t, ht, h⟩ := Result.bind_eq_ok.1 h
    obtain ⟨t', ht', h⟩ := Result.bind_eq_ok.1 h
    cases h
    rw [List.map_append, List.nodup_append] at hkeys
    obtain ⟨hsorted, hfind⟩ := ih ht hkeys.1
    rw [treeInsert_eq_ok ht']
    refine ⟨hsorted.insert, fun k v => ?_⟩
    rw [OrdMap.find_insert, List.mem_append, List.mem_singleton]
    by_cases hk : e.key = k
    · rw [if_pos hk]
      constructor
      · intro hv
        cases hv
        exact .inr (by rw [← hk])
      · rintro (hmem | heq)
        · exact absurd hk.symm (hkeys.2.2 k (List.mem_map_of_mem hmem) e.key (by simp))
        · rw [← heq]
    · rw [if_neg hk, hfind]
      refine ⟨.inl, ?_⟩
      rintro (hmem | heq)
      · exact hmem
      · exact absurd (by rw [← heq]) hk

/-- The tree of a backfill is the inverse of the keys of the rows. -/
theorem backfill_inverts (hs : OrdMap.Sorted b.data) {es : List Entry} {tree : TreeContents}
    (h : computeBackfill b.def_ idx [] b.data = .ok es) (ht : buildTree es = .ok tree) :
    (∀ k row, b.rows k = some row → ∃ e, entryFor b.def_ idx row k = .ok e) ∧
      Inverse.Inverts tree (b.keys idx) := by
  obtain ⟨hes, hunique⟩ := computeBackfill_eq_ok h
  have hmem : ∀ k v, (⟨k, v⟩ : Entry) ∈ es ↔ b.keys idx v = some k := by
    intro k v
    rw [TableImage.keys_eq_some hs, ← mem_rowEntries hes, List.mem_map]
    constructor
    · intro hmem
      exact ⟨_, hmem, rfl⟩
    · rintro ⟨e, he, heq⟩
      cases heq
      exact he
  have hkeys : (es.map Entry.key).Nodup := by
    cases hu : idx.unique with
    | true => exact (hunique hu).1
    | false =>
      have hvalues := (hs.keys.imp (fun hlt => ne_of_lt hlt)).sublist (rowEntries_sublist hes)
      rw [List.map_map, List.pairwise_map] at hvalues
      rw [List.Nodup, List.pairwise_map]
      refine hvalues.imp_of_mem (fun {e e'} he he' hne heq => hne ?_)
      exact indexKey_inj hu ((hmem e.key e.value).1 he)
        (((hmem e'.key e'.value).1 he').trans (congrArg some heq.symm))
  obtain ⟨hsorted, hfind⟩ := buildTree_eq_ok ht hkeys
  refine ⟨fun k row hrow => ?_, hsorted, fun k v => (hfind k v).trans (hmem k v)⟩
  obtain ⟨bytes, hdata, hdec⟩ := (TableImage.rows_eq_some hs).1 hrow
  exact rowEntries_total hes hdata hdec

/-- The trees backfills add, and those they leave alone. -/
theorem applyBackfills_trees {backfills : List (IndexDef × List Entry)}
    (hnames : (backfills.map Prod.fst).Pairwise (fun i j => i.name ≠ j.name))
    (h : backfills.foldlM (fun image b => applyBackfill image b.1 b.2) a = .ok b) :
    (∀ i, (∀ x ∈ backfills, x.1.name ≠ i) → OrdMap.find i b.indexes = OrdMap.find i a.indexes) ∧
      ∀ x ∈ backfills, ∃ tree, buildTree x.2 = .ok tree ∧
        OrdMap.find x.1.name b.indexes = some tree := by
  induction backfills generalizing a with
  | nil =>
    cases h
    exact ⟨fun _ _ => rfl, fun x hx => absurd hx List.not_mem_nil⟩
  | cons bf backfills ih =>
    obtain ⟨c, hc, h⟩ := Result.bind_eq_ok.1 h
    obtain ⟨tree, htree, hc⟩ := Result.bind_eq_ok.1 hc
    obtain ⟨_, -, hc⟩ := Result.bind_eq_ok.1 hc
    cases hc
    obtain ⟨hfirst, hnames⟩ := List.pairwise_cons.1 hnames
    obtain ⟨hother, hself⟩ := ih hnames h
    have hinsert : ∀ i, OrdMap.find i (OrdMap.insert bf.1.name tree a.indexes) =
        if bf.1.name = i then some tree else OrdMap.find i a.indexes :=
      fun i => OrdMap.find_insert _ i _ _
    refine ⟨fun i hi => ?_, List.forall_mem_cons.2 ⟨⟨tree, htree, ?_⟩, hself⟩⟩
    · rw [hother i (fun x hx => hi x (List.mem_cons_of_mem _ hx))]
      exact (hinsert i).trans (if_neg (hi bf List.mem_cons_self))
    · rw [hother bf.1.name (fun x hx => (hfirst x.1 (List.mem_map_of_mem hx)).symm)]
      exact (hinsert _).trans (if_pos rfl)

/-- Each backfill is the entries of its index. -/
theorem mem_computeBackfills {d : TableDef} {data : TreeContents} {idxs : List IndexDef}
    {backfills : List (IndexDef × List Entry)} (h : computeBackfills d data idxs = .ok backfills) :
    ∀ x ∈ backfills, computeBackfill d x.1 [] data = .ok x.2 := by
  induction idxs generalizing backfills with
  | nil =>
    cases h
    exact fun x hx => absurd hx List.not_mem_nil
  | cons idx idxs ih =>
    obtain ⟨entries, hentries, h⟩ := Result.bind_eq_ok.1 h
    obtain ⟨rest, hrest, h⟩ := Result.bind_eq_ok.1 h
    cases h
    exact List.forall_mem_cons.2 ⟨hentries, ih hrest⟩

variable {s s' : CatState}

/-- A new table has no rows and no entries. -/
theorem createTable_indexes {def_ : TableDef} (h : createTable s def_ = .ok s') :
    ∀ t b, OrdMap.find t s'.tables = some b → OrdMap.find t s.tables = some b ∨ b.Indexed := by
  obtain ⟨-, -, -, htables⟩ := createTable_eq_ok h
  intro t b hb
  rw [htables, OrdMap.find_insert] at hb
  split at hb
  · cases hb
    refine .inr ⟨fun _ _ k row hrow => ?_, fun idx hidx => ⟨[], find_emptyIndexes hidx,
      OrdMap.sorted_nil, fun k v => ?_⟩⟩
    · cases hrow
    · constructor
      · intro hfind
        cases hfind
      · intro hkey
        cases hkey
  · exact .inl hb

theorem dropTable_indexes (h : dropTable s table = .ok s') :
    ∀ t b, OrdMap.find t s'.tables = some b → OrdMap.find t s.tables = some b := by
  obtain ⟨image, -, h⟩ := Result.bind_eq_ok.1 h
  obtain ⟨_, -, h⟩ := Result.bind_eq_ok.1 h
  cases h
  intro t b hb
  change OrdMap.find t (OrdMap.erase table s.tables) = some b at hb
  rw [OrdMap.find_erase] at hb
  split at hb
  · cases hb
  · exact hb

/-- A new index is filled from the rows. -/
theorem createIndex_carries {index : IndexDef} (hs : s.Sound)
    (h : createIndex s table index = .ok s') :
    ∃ a b, OrdMap.find table s.tables = some a ∧ s' = s.store table b ∧
      Altered (.createIndex table index) table a b ∧ Carries a b := by
  obtain ⟨image, entries, tree, himage, -, hvalid, hentries, htree, rfl⟩ := createIndex_eq_ok h
  have hnames := (TableDef.validate_eq_ok hvalid).indexNames
  refine ⟨image, _, himage, rfl, ⟨rfl, rfl, rfl, rfl, rfl, .inl rfl⟩, fun idx hidx => ?_⟩
  change idx ∈ image.def_.indexes ++ [index] at hidx
  change (_ ∧ OrdMap.find idx.name (OrdMap.insert index.name tree image.indexes) = _) ∨
    (_ ∧ ∃ t, OrdMap.find idx.name (OrdMap.insert index.name tree image.indexes) = some t ∧ _)
  rw [OrdMap.find_insert]
  rcases List.mem_append.1 hidx with hidx | hidx
  · have hne := (List.pairwise_append.1 hnames).2.2 idx hidx index (by simp)
    exact .inl ⟨hidx, if_neg (fun heq => hne heq.symm)⟩
  · rw [List.mem_singleton.1 hidx, if_pos rfl]
    obtain ⟨hall, hinv⟩ := backfill_inverts
      (b := ⟨{ image.def_ with indexes := image.def_.indexes ++ [index] }, image.data,
        OrdMap.insert index.name tree image.indexes⟩) (hs.inOrder table image himage) hentries htree
    exact .inr ⟨hall, tree, rfl, hinv⟩

/-- Dropping an index leaves the others. -/
theorem dropIndex_carries {index : String} (hs : s.Sound)
    (h : dropIndex s table index = .ok s') :
    ∃ a b, OrdMap.find table s.tables = some a ∧ s' = s.store table b ∧
      Altered (.dropIndex table index) table a b ∧ Carries a b := by
  obtain ⟨image, pos, himage, hpos, -, rfl⟩ := dropIndex_eq_ok h
  have hd := (hs.wellFormed.tables table image himage).def_
  refine ⟨image, _, himage, rfl, ⟨rfl, rfl, rfl, rfl, rfl, .inl rfl⟩,
    fun idx hidx => .inl ⟨List.mem_of_mem_eraseIdx hidx, ?_⟩⟩
  show OrdMap.find idx.name (OrdMap.erase index image.indexes) = _
  rw [OrdMap.find_erase, if_neg (fun heq => name_ne_of_mem_eraseIdx hd hpos hidx heq.symm)]

/-- A new column leaves the old indexes and fills its own. -/
theorem addColumn_carries {column : ColumnDef} (hs : s.Sound)
    (h : addColumn s table column = .ok s') :
    ∃ a b, OrdMap.find table s.tables = some a ∧ s' = s.store table b ∧
      Altered (.addColumn table column) table a b ∧ Carries a b := by
  obtain ⟨image, backfills, image', himage, hfresh, hback, hvalid, hfills, hfold, rfl⟩ :=
    addColumn_eq_ok h
  obtain ⟨hdef, hdata, -⟩ := applyBackfills_eq_ok hfold
  have hnames := (TableDef.validate_eq_ok hvalid).indexNames
  have hmap := computeBackfills_map_fst hfills
  change (image.def_.indexes ++ (image.def_.widen column).neededIndexes).Pairwise _ at hnames
  obtain ⟨hold, hnew⟩ := applyBackfills_trees (hmap ▸ (List.pairwise_append.1 hnames).2.1) hfold
  have haltered : Altered (.addColumn table column) table image image' := by
    refine ⟨hdata, ?_, ?_, ?_, ?_, .inr ⟨column, rfl, ?_, hfresh, hback⟩⟩ <;> rw [hdef] <;> rfl
  refine ⟨image, image', himage, rfl, haltered, fun idx hidx => ?_⟩
  rw [hdef] at hidx
  rcases List.mem_append.1 hidx with hidx | hidx
  · refine .inl ⟨hidx, hold idx.name (fun x hx => ?_)⟩
    have hneeded : x.1 ∈ (image.def_.widen column).neededIndexes :=
      hmap ▸ List.mem_map_of_mem hx
    exact ((List.pairwise_append.1 hnames).2.2 idx hidx x.1 hneeded).symm
  · rw [← hmap] at hidx
    obtain ⟨x, hx, rfl⟩ := List.mem_map.1 hidx
    obtain ⟨tree, htree, hfind⟩ := hnew x hx
    have hfill := mem_computeBackfills hfills x hx
    obtain ⟨hall, hinv⟩ := backfill_inverts (b := image')
      (by rw [hdata]; exact hs.inOrder table image himage) (by rw [hdef, hdata]; exact hfill) htree
    exact .inr ⟨hall, tree, hfind, hinv⟩

/-- What a definition job does to the indexes of each table. -/
theorem definition_indexes {envs : Nat → Env} {fuel : Nat} {op : JobOp} {out : JobOut}
    (hs : s.Sound) (hop : op.isDefinition = true) (h : apply envs fuel s op = .ok (out, s')) :
    ∀ t b, OrdMap.find t s'.tables = some b → OrdMap.find t s.tables = some b ∨ b.Indexed ∨
      ∃ op a, OrdMap.find t s.tables = some a ∧ Altered op t a b ∧ Carries a b := by
  -- a job that stores one table leaves the others as they are
  have hstored : ∀ {table op}, (∃ a b, OrdMap.find table s.tables = some a ∧
      s' = s.store table b ∧ Altered op table a b ∧ Carries a b) →
      ∀ t b, OrdMap.find t s'.tables = some b → OrdMap.find t s.tables = some b ∨ b.Indexed ∨
        ∃ op a, OrdMap.find t s.tables = some a ∧ Altered op t a b ∧ Carries a b := by
    rintro table op ⟨a, b, ha, rfl, haltered, hcarries⟩ t b' hb'
    rw [CatState.find_store] at hb'
    split at hb'
    · next ht =>
      cases hb'
      exact .inr (.inr ⟨op, a, ht ▸ ha, ht ▸ haltered, hcarries⟩)
    · exact .inl hb'
  cases op with
  | createTable def_ =>
    obtain ⟨s₁, h, hout⟩ := Result.bind_eq_ok.1 h
    cases hout
    intro t b hb
    rcases createTable_indexes h t b hb with hb | hb
    · exact .inl hb
    · exact .inr (.inl hb)
  | dropTable table =>
    obtain ⟨s₁, h, hout⟩ := Result.bind_eq_ok.1 h
    cases hout
    exact fun t b hb => .inl (dropTable_indexes h t b hb)
  | addColumn table column =>
    obtain ⟨s₁, h, hout⟩ := Result.bind_eq_ok.1 h
    cases hout
    exact hstored (addColumn_carries hs h)
  | createIndex table index =>
    obtain ⟨s₁, h, hout⟩ := Result.bind_eq_ok.1 h
    cases hout
    exact hstored (createIndex_carries hs h)
  | dropIndex table index =>
    obtain ⟨s₁, h, hout⟩ := Result.bind_eq_ok.1 h
    cases hout
    exact hstored (dropIndex_carries hs h)
  | _ => cases hop

end Definitions

/-! ## Every run -/

/-- Every table has the entries of its rows, and its trees in order. -/
def CatState.Entered (s : CatState) : Prop :=
  ∀ t a, OrdMap.find t s.tables = some a → a.Entered

/-- The updates of a job are apart in the state it starts from. -/
def UpdatesApart : JobCond := fun env fuel s op =>
  ∀ table image deltas referential, OrdMap.find table s.tables = some image →
    op.Targets env s table image deltas →
    planReferential fuel s table image.def_ deltas = .ok referential →
    UpdateApart s table deltas referential

section Jobs

variable {s s' : CatState} {table : String}

/-- A row job is writes. -/
theorem Statement.wrote {env : Env} {fuel : Nat} {op : JobOp} (hs : s.Sound)
    (h : Statement env fuel s op s') : s.SameDefs s' ∧ ∃ ws, s.Wrote ws s' := by
  cases h with
  | insert h =>
    obtain ⟨image, st, -, -, -, hsame, hwrote⟩ := insert_wrote hs h
    exact ⟨hsame, _, hwrote⟩
  | change _ h => exact ⟨(h.wrote hs).1, _, (h.wrote hs).2⟩
  | removal _ _ h => exact ⟨(h.wrote hs).1, _, (h.wrote hs).2⟩
  | idle => exact ⟨.refl s, [], .refl s⟩

/-- A row job leaves every table indexed. -/
theorem Statement.indexed {env : Env} {fuel : Nat} {op : JobOp} (hs : s.Sound) (hi : s.Indexed)
    (hC : UpdatesApart env fuel s op) (h : Statement env fuel s op s') : s'.Indexed := by
  cases h with
  | insert h => exact insert_indexed hs hi h
  | @change _ table image deltas referential _ htargets h =>
    exact h.indexed hs hi (hC table image deltas referential h.found htargets h.planned)
  | removal _ _ h => exact h.indexed hs hi
  | idle => exact hi

/-- Every job keeps the entries of rows defined and the trees in order. -/
theorem entered_kept {C : JobCond} : Keeps C (fun s => s.Sound ∧ s.Entered) := by
  intro envs fuel s op out s' hb hC h hs
  refine ⟨sound_kept envs fuel s op out s' hb hC h hs.1, ?_⟩
  obtain ⟨hs, he⟩ := hs
  intro t b hb'
  cases hop : op.isDefinition with
  | false =>
    obtain ⟨hsame, ws, hwrote⟩ := (apply_statement hop hb h).wrote hs
    have hdef := hsame t
    rw [hb', Option.map_some] at hdef
    obtain ⟨a, ha, -⟩ := Option.map_eq_some_iff.1 hdef.symm
    obtain ⟨b'', hb'', hab⟩ := hwrote t a ha
    cases hb'.symm.trans hb''
    exact (he t a ha).wrote hab
  | true =>
    rcases definition_indexes hs hop h t b hb' with hold | hnew | ⟨op, a, ha, haltered, hcarries⟩
    · exact he t b hold
    · exact hnew.entered
    · exact (he t a ha).altered (hs.wellFormed.tables t a ha).def_ (hs.readable t a ha) haltered
        hcarries

theorem Run.entered {ops : List JobOp} (h : Run ops s) : s.Entered := by
  have hempty : CatState.empty.Entered := by
    intro t a ha
    cases ha
  exact (RunWhere.induct entered_kept ⟨sound_empty, hempty⟩ h.free).2

/-- Every job whose updates are apart leaves every table indexed. -/
theorem indexed_kept : Keeps UpdatesApart (fun s => s.Sound ∧ s.Indexed) := by
  intro envs fuel s op out s' hb hC h hs
  refine ⟨sound_kept envs fuel s op out s' hb hC h hs.1, ?_⟩
  obtain ⟨hs, hi⟩ := hs
  cases hop : op.isDefinition with
  | false => exact (apply_statement hop hb h).indexed hs hi hC
  | true =>
    intro t b hb'
    rcases definition_indexes hs hop h t b hb' with hold | hnew | ⟨op, a, ha, haltered, hcarries⟩
    · exact hi t b hold
    · exact hnew
    · exact (hi t a ha).altered (hs.wellFormed.tables t a ha).def_ (hs.readable t a ha) haltered
        hcarries

theorem RunWhere.indexed {ops : List JobOp} (h : RunWhere UpdatesApart ops s) : s.Indexed := by
  have hempty : CatState.empty.Indexed := by
    intro t a ha
    cases ha
  exact (RunWhere.induct indexed_kept ⟨sound_empty, hempty⟩ h).2

/-- **Indexes follow rows.** In every state of a run whose updates are apart, every index of every
table holds exactly the entries of the table's rows, each once. -/
theorem indexes_stay_consistent {ops : List JobOp} (h : RunWhere UpdatesApart ops s) (t : String)
    (image : TableImage) (himage : OrdMap.find t s.tables = some image) : image.Consistent :=
  (indexed_iff_consistent (h.sound.inOrder t image himage) (h.sound.readable t image himage)).1
    (h.indexed t image himage)

end Jobs

/-! ### Moving everyone one seat -/

/-- Whether the moves of an `update_where` are apart. -/
def updateApart (env : Env) (fuel : Nat) (s : CatState) (table : String) (policy : RowUpdater) :
    Bool :=
  (OrdMap.find table s.tables).any (fun image =>
    (matchRows env s table image.def_ policy 0 [] image.data).toOption.any (fun deltas =>
      (planReferential fuel s table image.def_ deltas).toOption.any (fun referential =>
        s.tables.all (fun e => decide (MovesApart e.2.def_
          (if table = e.1 then deltas.map RowDelta.write else [])
          (writesOn e.1 ((rewritesOf referential).map rewriteWrite)))))))

theorem updateApart_sound {env : Env} {fuel : Nat} {s : CatState} {table : String}
    {policy : RowUpdater} (h : updateApart env fuel s table policy = true) :
    UpdatesApart env fuel s (.updateWhere table policy) := by
  rintro t image deltas referential himage ⟨rfl, hmatch⟩ hplan u a ha
  rw [updateApart, himage, Option.any_some, hmatch] at h
  change (planReferential fuel s table image.def_ deltas).toOption.any _ = true at h
  rw [hplan] at h
  exact of_decide_eq_true (List.all_eq_true.1 h (u, a) (OrdMap.mem_of_find ha))

/-- Seats, each held by one guest. -/
def guestsDef : TableDef :=
  ⟨"guests", [ColumnDef.new "id" .i64, { ColumnDef.new "seat" .i64 with unique := true }],
    ["id"], [], [], []⟩

/-- Coats that hang behind a seat. -/
def coatsDef : TableDef :=
  ⟨"coats", [ColumnDef.new "id" .i64, ColumnDef.new "seat" .i64], ["id"], [],
    [⟨"by_seat", ["seat"], false⟩],
    [⟨"of_seat", ["seat"], "guests", ["seat"], .restrict, .cascade⟩]⟩

def seated : List JobOp :=
  [.createTable guestsDef, .createTable coatsDef,
    .insert "guests" ([1, 2, 3].map (fun i : Int64 => [("id", .i64 i), ("seat", .i64 i)])),
    .insert "coats" ([2, 3].map (fun i : Int64 => [("id", .i64 i), ("seat", .i64 i)]))]

/-- Every guest moves some seats to the right. -/
def shiftSeats (by_ : Int64) : RowUpdater :=
  ⟨fun _ _ => .ok true, fun _ row =>
    match row with
    | [_, .i64 seat] => .ok [("seat", .i64 (seat + by_))]
    | _ => .ok []⟩

theorem meets_seated : ∀ op ∈ seated, ∀ env s, Meets UpdatesApart (fun _ => env) 9 s op := by
  intro op hop env s
  simp only [seated, List.mem_cons, List.not_mem_nil, or_false] at hop
  rcases hop with rfl | rfl | rfl | rfl <;> exact fun _ _ _ _ _ htargets _ => htargets.elim

/-- Everyone moves to a seat that is free by then. -/
theorem indexes_stay_consistent_left : ∃ s image,
    RunWhere UpdatesApart (seated ++ [.updateWhere "guests" (shiftSeats (-1))]) s ∧
      OrdMap.find "guests" s.tables = some image ∧ image.data.length = 3 ∧ image.Consistent := by
  obtain ⟨s, s', out, hrun, happly, htest⟩ := RunWhere.evalThen tickingEnv 9 seated
    (.updateWhere "guests" (shiftSeats (-1))) (fun s s' =>
      updateApart (tickingEnv 4) 9 s "guests" (shiftSeats (-1)) &&
        (OrdMap.find "guests" s'.tables).any (fun i => i.data.length = 3)) meets_seated
    (by decide +kernel)
  rw [Bool.and_eq_true] at htest
  obtain ⟨image, himage, hlen⟩ := (Option.any_eq_true _ _).1 htest.2
  have hrun' := hrun.snoc
    (show Meets UpdatesApart _ 9 s (.updateWhere _ _) from updateApart_sound htest.1) happly
  exact ⟨s', image, hrun', himage, of_decide_eq_true hlen,
    indexes_stay_consistent hrun' "guests" image himage⟩

/-- Everyone moves to the seat of the next, whose entry goes when the next moves on. -/
theorem shifted_right_loses_entries : ∃ s image,
    Run (seated ++ [.updateWhere "guests" (shiftSeats 1)]) s ∧
      OrdMap.find "guests" s.tables = some image ∧ ¬ image.Consistent := by
  obtain ⟨s, s', out, hrun, happly, htest⟩ := RunWhere.evalThen tickingEnv 9 seated
    (.updateWhere "guests" (shiftSeats 1)) (fun _ s' =>
      (OrdMap.find "guests" s'.tables).any (fun i => i.def_.indexes.any (fun idx =>
        (OrdMap.find idx.name i.indexes).any (fun tree =>
          (rowEntries i.def_ idx i.data).toOption.any (fun es => tree.length ≠ es.length)))))
    meets_seated (by decide +kernel)
  obtain ⟨image, himage, htest⟩ := (Option.any_eq_true _ _).1 htest
  refine ⟨s', image, .snoc hrun.run ⟨_, _, _, happly⟩, himage, fun hc => ?_⟩
  obtain ⟨idx, hidx, htest⟩ := List.any_eq_true.1 htest
  obtain ⟨tree, htree, -, es, hes, hperm⟩ := hc.indexes idx hidx
  rw [htree, Option.any_some, hes] at htest
  exact absurd hperm.length_eq (of_decide_eq_true htest)

end Edb.Catalog
