import Edb.Catalog.Indexed

/-!
# Jobs whose moves are orderly

What a job checks of the unique keys its rows take: that each was free, or is left by a row of the
same statement, and that no two of the changed rows, and no two of the rewritten ones, take one
key. What it does not check is asked of an update instead (`MovesApart`): the order in which the
rows are written, and how the changed rows and those of the closure meet.
-/

namespace Edb.Catalog

open Edb.Types Edb.Lib

/-! ## Moves of one row -/

section OneRow

variable {d : TableDef} {idx : IndexDef} {pkKey : Bytes} {oldRow newRow : List Value}

/-- A row that takes a key has an entry that arrives there. -/
theorem moved_of_takes {m : Option (Option Entry × Option Entry)} {k : Bytes}
    (h : moved d idx pkKey oldRow newRow = .ok m)
    (hk : (RowWrite.move d idx ⟨pkKey, some oldRow, some newRow⟩).Takes k) :
    ∃ oldE e, m = some (oldE, some e) ∧ e.key = k := by
  obtain ⟨oldE, newE, hold, hnew, rfl⟩ := moved_eq_ok h
  obtain ⟨hto, hfrom⟩ := hk
  change indexKey d idx pkKey (some newRow) = some k at hto
  change indexKey d idx pkKey (some oldRow) ≠ some k at hfrom
  rw [indexKey_some hnew] at hto
  rw [indexKey_some hold, ← hto] at hfrom
  obtain ⟨e, rfl, rfl⟩ := Option.map_eq_some_iff.1 hto
  exact ⟨oldE, e, if_neg hfrom, rfl⟩

/-- A row whose entry goes away leaves its key. -/
theorem leaves_of_moved {e : Entry} {newE : Option Entry}
    (h : moved d idx pkKey oldRow newRow = .ok (some (some e, newE))) :
    (RowWrite.move d idx ⟨pkKey, some oldRow, some newRow⟩).Leaves e.key := by
  obtain ⟨oldE, newE', hold, hnew, heq⟩ := moved_eq_ok h
  split at heq
  · cases heq
  · next hne =>
    cases heq
    constructor
    · show indexKey d idx pkKey (some oldRow) = some e.key
      rw [indexKey_some hold]
      rfl
    · show indexKey d idx pkKey (some newRow) ≠ some e.key
      rw [indexKey_some hnew]
      exact fun h => hne h.symm

/-- The moves of a row are those of the indexes in which its entry changes. -/
theorem mem_rowMoves {check : EntryCheck} {idxs : List IndexDef}
    {moves : List (IndexDef × Option Entry × Option Entry)}
    (h : rowMoves check d pkKey oldRow newRow idxs = .ok moves)
    (x : IndexDef × Option Entry × Option Entry) :
    x ∈ moves ↔ x.1 ∈ idxs ∧ moved d x.1 pkKey oldRow newRow = .ok (some x.2) := by
  induction idxs generalizing moves with
  | nil =>
    cases h
    simp
  | cons idx idxs ih =>
    obtain ⟨m, hm, h⟩ := Result.bind_eq_ok.1 h
    obtain ⟨_, -, h⟩ := Result.bind_eq_ok.1 h
    obtain ⟨rest, hrest, h⟩ := Result.bind_eq_ok.1 h
    cases h
    rw [List.mem_append, ih hrest, List.mem_cons]
    constructor
    · rintro (hx | ⟨hmem, hx⟩)
      · obtain ⟨m', hm', rfl⟩ := List.mem_map.1 hx
        rw [Option.mem_toList] at hm'
        exact ⟨.inl rfl, hm.trans (congrArg Except.ok hm')⟩
      · exact ⟨.inr hmem, hx⟩
    · rintro ⟨heq | hmem, hx⟩
      · rw [heq] at hx
        cases hm.symm.trans hx
        refine .inl (List.mem_map.2 ⟨x.2, Option.mem_toList.2 rfl, ?_⟩)
        rw [← heq]
      · exact .inr ⟨hmem, hx⟩

/-- The moves of an update are computed for every index. -/
theorem rowMoves_total {check : EntryCheck} {idxs : List IndexDef}
    {moves : List (IndexDef × Option Entry × Option Entry)}
    (h : rowMoves check d pkKey oldRow newRow idxs = .ok moves) (hidx : idx ∈ idxs) :
    ∃ m, moved d idx pkKey oldRow newRow = .ok m := by
  induction idxs generalizing moves with
  | nil => cases hidx
  | cons first idxs ih =>
    obtain ⟨m, hm, h⟩ := Result.bind_eq_ok.1 h
    obtain ⟨_, -, h⟩ := Result.bind_eq_ok.1 h
    obtain ⟨rest, hrest, -⟩ := Result.bind_eq_ok.1 h
    rcases List.mem_cons.1 hidx with rfl | hidx
    · exact ⟨m, hm⟩
    · exact ih hrest hidx

end OneRow

/-! ## Unique keys that are checked -/

/-- The keys rewritten rows take are different, and each is free or freed. -/
theorem checkTaken_eq_ok {s : CatState} {freed seen l : List UniqueKey}
    (h : checkTaken s freed seen l = .ok ()) :
    l.Nodup ∧ (∀ x ∈ l, x ∉ seen) ∧ ∀ x ∈ l, ∃ image tree,
      OrdMap.find x.table s.tables = some image ∧ OrdMap.find x.index image.indexes = some tree ∧
        (OrdMap.find x.key tree = none ∨ x ∈ freed) := by
  induction l generalizing seen with
  | nil =>
    exact ⟨List.nodup_nil, fun x hx => absurd hx List.not_mem_nil,
      fun x hx => absurd hx List.not_mem_nil⟩
  | cons x l ih =>
    obtain ⟨image, himage, h⟩ := Result.bind_eq_ok.1 h
    obtain ⟨tree, htree, h⟩ := Result.bind_eq_ok.1 h
    obtain ⟨hguard, h⟩ := Result.guard_eq_ok.1 h
    obtain ⟨hnodup, hseen, hfree⟩ := ih h
    rw [TableImage.indexTree_eq_ok] at htree
    have hguard' : x ∉ seen ∧ (OrdMap.find x.key tree = none ∨ x ∈ freed) := by
      constructor
      · intro hx
        exact hguard (by simp [hx])
      · by_contra hno
        obtain ⟨hsome, hgone⟩ := not_or.1 hno
        exact hguard (by simp [Option.isSome_iff_ne_none.2 hsome, hgone])
    refine ⟨List.nodup_cons.2 ⟨fun hx => hseen x hx (by simp), hnodup⟩, ?_, ?_⟩
    · exact List.forall_mem_cons.2 ⟨hguard'.1,
        fun y hy hys => hseen y hy (List.mem_cons_of_mem _ hys)⟩
    · exact List.forall_mem_cons.2
        ⟨⟨image, tree, CatState.load_eq_ok.1 himage, htree, hguard'.2⟩, hfree⟩

/-- The unique keys a rewritten row of a table frees and takes. -/
theorem mem_movedByRewrite {tables : List TableDef} {d : TableDef}
    {r : RowRef × (List Value × List Value)} {ms : List (Option UniqueKey × Option UniqueKey)}
    (hd : tables.find? (fun t => t.name = (ofLex r.1).1) = some d)
    (h : movedByRewrite tables r = .ok ms) (p : Option UniqueKey × Option UniqueKey) :
    p ∈ ms ↔ ∃ idx ∈ d.indexes, idx.unique = true ∧
      ∃ m, moved d idx (ofLex r.1).2 r.2.1 r.2.2 = .ok (some m) ∧
        p = (m.1.map (uniqueKey d.name idx), m.2.map (uniqueKey d.name idx)) := by
  rw [movedByRewrite, hd] at h
  obtain ⟨moves, hmoves, h⟩ := Result.bind_eq_ok.1 h
  cases h
  rw [List.mem_filterMap]
  constructor
  · rintro ⟨p', hp', heq⟩
    have heq : p' = some p := heq
    obtain ⟨idx, hidx, hstep⟩ := Result.mem_of_mapM hmoves hp'
    obtain ⟨m, hm, hstep⟩ := Result.bind_eq_ok.1 hstep
    rw [heq] at hstep
    obtain ⟨hmem, hu⟩ := List.mem_filter.1 hidx
    obtain ⟨m', hm', hp⟩ := Option.map_eq_some_iff.1 (Except.ok.inj hstep)
    exact ⟨idx, hmem, hu, m', by rw [hm, hm'], hp.symm⟩
  · rintro ⟨idx, hidx, hu, m, hm, rfl⟩
    obtain ⟨p', hp', hstep⟩ := Result.exists_of_mapM hmoves (List.mem_filter.2 ⟨hidx, hu⟩)
    rw [hm] at hstep
    cases hstep
    exact ⟨_, hp', rfl⟩

/-! ## The writes to one table -/

section OneTable

variable {a : TableImage} {idx : IndexDef} {cs rs : List RowWrite}

/-- Two writes do not take one key. -/
def TakeOnce (d : TableDef) (idx : IndexDef) (w w' : RowWrite) : Prop :=
  ∀ k, (w.move d idx).Takes k → ¬ (w'.move d idx).Takes k

/-- A key that one of the writes takes was free, or one of the writes leaves it. -/
def TableImage.TakesFree (a : TableImage) (idx : IndexDef) (ws : List RowWrite) : Prop :=
  ∀ w ∈ ws, ∀ k, (w.move a.def_ idx).Takes k → ∀ u, a.keys idx u = some k →
    ∃ w' ∈ ws, (w'.move a.def_ idx).Leaves k

/-- What is checked of the writes to a table: those of a statement, and those of its closure. -/
structure TableImage.Checked (a : TableImage) (cs rs : List RowWrite) : Prop where
  stored : ∀ w ∈ cs ++ rs, w.old = a.rows w.pkKey
  rows : (cs.map RowWrite.pkKey).Nodup ∧ (rs.map RowWrite.pkKey).Nodup
  free : ∀ idx ∈ a.def_.indexes, idx.unique = true → a.TakesFree idx (cs ++ rs)
  once : ∀ idx ∈ a.def_.indexes, idx.unique = true →
    cs.Pairwise (TakeOnce a.def_ idx) ∧ rs.Pairwise (TakeOnce a.def_ idx)

/-- What is not checked of them. -/
structure MovesApart (d : TableDef) (cs rs : List RowWrite) : Prop where
  /-- No row takes a unique key that a row written after it is still to leave. -/
  order : ∀ idx ∈ d.indexes, idx.unique = true → (cs ++ rs).Pairwise (fun w w' =>
    ∀ k, (w.move d idx).Takes k → ¬ (w'.move d idx).Leaves k)
  /-- The closure takes no unique key that a changed row takes. -/
  once : ∀ idx ∈ d.indexes, idx.unique = true → ∀ w ∈ cs, ∀ w' ∈ rs, w.pkKey ≠ w'.pkKey →
    TakeOnce d idx w w'
  /-- A changed row that the closure rewrites has one key after both, or the closure alone moves
  its entry, or the change left it without one. -/
  again : ∀ idx ∈ d.indexes, ∀ w ∈ cs, ∀ w' ∈ rs, w.pkKey = w'.pkKey →
    (w'.move d idx).new = (w.move d idx).new ∨ (w.move d idx).new = (w.move d idx).old ∨
      ((w.move d idx).new = none ∧ (w'.move d idx).new ≠ (w'.move d idx).old)

instance (d : TableDef) (idx : IndexDef) (w w' : RowWrite) : Decidable (TakeOnce d idx w w') :=
  inferInstanceAs (Decidable (∀ k, (w.move d idx).Takes k → ¬ (w'.move d idx).Takes k))

instance (d : TableDef) (cs rs : List RowWrite) : Decidable (MovesApart d cs rs) :=
  decidable_of_iff
    ((∀ idx ∈ d.indexes, idx.unique = true → (cs ++ rs).Pairwise (fun w w' =>
        ∀ k, (w.move d idx).Takes k → ¬ (w'.move d idx).Leaves k)) ∧
      (∀ idx ∈ d.indexes, idx.unique = true → ∀ w ∈ cs, ∀ w' ∈ rs, w.pkKey ≠ w'.pkKey →
        TakeOnce d idx w w') ∧
      ∀ idx ∈ d.indexes, ∀ w ∈ cs, ∀ w' ∈ rs, w.pkKey = w'.pkKey →
        (w'.move d idx).new = (w.move d idx).new ∨ (w.move d idx).new = (w.move d idx).old ∨
          ((w.move d idx).new = none ∧ (w'.move d idx).new ≠ (w'.move d idx).old))
    ⟨fun h => ⟨h.1, h.2.1, h.2.2⟩, fun h => ⟨h.order, h.once, h.again⟩⟩

/-- Rows that take one key of a non-unique index are one row. -/
theorem same_of_takes (hu : idx.unique = false) {d : TableDef} {w : RowWrite} {u k : Bytes}
    {row : Option (List Value)} (hw : (w.move d idx).Takes k)
    (hk : indexKey d idx u row = some k) : w.pkKey = u :=
  indexKey_inj hu hw.1 hk

theorem TableImage.Checked.nil (a : TableImage) : a.Checked [] [] :=
  ⟨fun _ hw => absurd hw List.not_mem_nil, ⟨.nil, .nil⟩,
    fun _ _ _ _ hw => absurd hw List.not_mem_nil, fun _ _ _ => ⟨.nil, .nil⟩⟩

theorem MovesApart.nil (d : TableDef) : MovesApart d [] [] :=
  ⟨fun _ _ _ => .nil, fun _ _ _ _ hw => absurd hw List.not_mem_nil,
    fun _ _ _ hw => absurd hw List.not_mem_nil⟩

theorem TableImage.Checked.append (h : a.Checked cs []) (h' : a.Checked [] rs) :
    a.Checked cs rs := by
  have hcs := h.stored
  rw [List.append_nil] at hcs
  refine ⟨fun w hw => (List.mem_append.1 hw).elim (hcs w) (h'.stored w), ⟨h.rows.1, h'.rows.2⟩,
    fun idx hidx hu w hw k hk u hkey => ?_,
    fun idx hidx hu => ⟨(h.once idx hidx hu).1, (h'.once idx hidx hu).2⟩⟩
  rcases List.mem_append.1 hw with hw | hw
  · obtain ⟨w', hw', hleaves⟩ := h.free idx hidx hu w (by rwa [List.append_nil]) k hk u hkey
    rw [List.append_nil] at hw'
    exact ⟨w', List.mem_append_left _ hw', hleaves⟩
  · obtain ⟨w', hw', hleaves⟩ := h'.free idx hidx hu w hw k hk u hkey
    exact ⟨w', List.mem_append_right _ hw', hleaves⟩

/-- Writes that take no unique key: rows that go, and then rows that take none. -/
theorem orderly_of_takes_none
    (hstored : ∀ w ∈ cs ++ rs, w.old = a.rows w.pkKey)
    (hrows : ((cs ++ rs).map RowWrite.pkKey).Nodup)
    (htakes : ∀ idx ∈ a.def_.indexes, idx.unique = true → ∀ w ∈ cs ++ rs, ∀ k,
      ¬ (w.move a.def_ idx).Takes k) : a.Checked cs rs ∧ MovesApart a.def_ cs rs := by
  have hdistinct := hrows
  rw [List.map_append, List.nodup_append] at hdistinct
  obtain ⟨hcs, hrs, hdisjoint⟩ := hdistinct
  have hnever : ∀ {ws : List RowWrite}, ws ⊆ cs ++ rs → ∀ idx ∈ a.def_.indexes,
      idx.unique = true → ∀ {R : RowWrite → RowWrite → Prop},
        (∀ w w', (∀ k, ¬ (w.move a.def_ idx).Takes k) → R w w') → ws.Pairwise R := by
    intro ws hws idx hidx hu R hR
    exact List.pairwise_of_forall_mem_list (fun w hw w' _ =>
      hR w w' (htakes idx hidx hu w (hws hw)))
  have happly : ∀ idx, ∀ w w' : RowWrite, (∀ k, ¬ (w.move a.def_ idx).Takes k) →
      TakeOnce a.def_ idx w w' := fun _ _ _ h k hk => absurd hk (h k)
  constructor
  · refine ⟨hstored, ⟨hcs, hrs⟩, fun idx hidx hu w hw k hk => absurd hk (htakes idx hidx hu w hw k),
      fun idx hidx hu => ⟨?_, ?_⟩⟩
    · exact hnever (List.subset_append_left ..) idx hidx hu (happly idx)
    · exact hnever (List.subset_append_right ..) idx hidx hu (happly idx)
  · refine ⟨fun idx hidx hu => ?_, fun idx hidx hu w hw w' _ _ => ?_,
      fun idx _ w hw w' hw' heq => ?_⟩
    · exact hnever (List.Subset.refl _) idx hidx hu (fun w w' h k hk => absurd hk (h k))
    · exact happly idx w w' (htakes idx hidx hu w (List.mem_append_left _ hw))
    · exact absurd heq (hdisjoint _ (List.mem_map_of_mem hw) _ (List.mem_map_of_mem hw'))

/-- Writes that are checked and apart move their entries in an orderly way. -/
theorem TableImage.Checked.orderly (h : a.Checked cs rs) (hap : MovesApart a.def_ cs rs)
    (hidx : idx ∈ a.def_.indexes) :
    Inverse.Orderly (a.keys idx) ((cs ++ rs).map (RowWrite.move a.def_ idx)) := by
  have hstart : ∀ w ∈ cs ++ rs, (w.move a.def_ idx).old = a.keys idx w.pkKey := by
    intro w hw
    show indexKey a.def_ idx w.pkKey w.old = _
    rw [h.stored w hw]
    rfl
  have hdistinct : ∀ {ws : List RowWrite}, (ws.map RowWrite.pkKey).Nodup →
      ws.Pairwise (fun w w' => w.pkKey ≠ w'.pkKey) := fun hn => List.pairwise_map.1 hn
  constructor
  · simp only [List.forall_mem_map]
    exact hstart
  · rw [List.forall_mem_map]
    intro w hw k hk u hu
    cases hunique : idx.unique with
    | true =>
      -- a key of a unique index is only taken where the checks found it free or left
      obtain ⟨w', hw', hleaves⟩ := h.free idx hidx hunique w hw k hk u hu
      exact ⟨_, List.mem_map_of_mem hw', hleaves⟩
    | false =>
      -- keys of an index that is not unique end in the row's own key, so no two rows share one
      have hself := same_of_takes hunique hk hu
      rw [← hself, ← hstart w hw] at hu
      exact absurd hu hk.2
  · rw [List.pairwise_map]
    cases hunique : idx.unique with
    | true => exact hap.order idx hidx hunique
    | false =>
      refine List.pairwise_of_forall_mem_list (fun w hw w' hw' k hk hk' => ?_)
      have hself := same_of_takes hunique hk hk'.1
      refine hk.2 ?_
      rw [hstart w hw, hself, ← hstart w' hw', hk'.1]
  · rw [List.pairwise_map]
    cases hunique : idx.unique with
    | true =>
      obtain ⟨hcs, hrs⟩ := h.once idx hidx hunique
      refine List.pairwise_append.2 ⟨hcs.imp ?_, hrs.imp ?_, hap.once idx hidx hunique⟩
      · intro w w' hww' _
        exact hww'
      · intro w w' hww' _
        exact hww'
    | false =>
      refine List.pairwise_of_forall_mem_list (fun w _ w' _ hne k hk hk' => ?_)
      exact hne (same_of_takes hunique hk hk'.1)
  · rw [List.pairwise_map, List.pairwise_append]
    refine ⟨?_, ?_, hap.again idx hidx⟩
    · exact (hdistinct h.rows.1).imp (fun hne heq => absurd heq hne)
    · exact (hdistinct h.rows.2).imp (fun hne heq => absurd heq hne)

end OneTable

/-! ## The rows an update changes -/

section Deltas

variable {s : CatState} {table : String} {image : TableImage} {idx : IndexDef} {k : Bytes}
  {deltas : List RowDelta}

theorem ChangedRow.moves {d : RowDelta} (h : ChangedRow s table image d) :
    ∃ check, rowMoves check image.def_ d.pkKey d.oldRow d.newRow image.def_.indexes =
      .ok d.moves := by
  obtain ⟨check, now, sets, bytes, -, -, h⟩ := h
  exact ⟨check, (changeRow_eq_ok h).2.2.moves⟩

theorem ChangedRow.stored {d : RowDelta} (hs : OrdMap.Sorted image.data)
    (h : ChangedRow s table image d) : image.rows d.pkKey = some d.oldRow := by
  obtain ⟨check, now, sets, bytes, hmem, hold, -⟩ := h
  exact (TableImage.rows_eq_some hs).2 ⟨bytes, hmem, hold⟩

/-- A unique key a changed row takes is among those that arrive. -/
theorem ChangedRow.arrives {d : RowDelta} (h : ChangedRow s table image d)
    (hidx : idx ∈ image.def_.indexes) (hu : idx.unique = true)
    (hk : (d.write.move image.def_ idx).Takes k) : (idx.name, k) ∈ arriving [d] := by
  obtain ⟨check, hmoves⟩ := h.moves
  obtain ⟨m, hm⟩ := rowMoves_total hmoves hidx
  obtain ⟨oldE, e, rfl, rfl⟩ := moved_of_takes hm hk
  have hmem := (mem_rowMoves hmoves (idx, oldE, some e)).2 ⟨hidx, hm⟩
  rw [arriving, List.flatMap_singleton, List.mem_filterMap]
  exact ⟨_, List.mem_filter.2 ⟨hmem, hu⟩, rfl⟩

/-- A key that leaves is one a changed row leaves. -/
theorem leaves_of_mem_leaving (hd : image.def_.WellFormed)
    (h : ∀ d ∈ deltas, ChangedRow s table image d) (hidx : idx ∈ image.def_.indexes)
    (hk : (idx.name, k) ∈ leaving deltas) :
    ∃ d ∈ deltas, (d.write.move image.def_ idx).Leaves k := by
  obtain ⟨d, hmem, hk⟩ := List.mem_flatMap.1 hk
  obtain ⟨⟨idx', oldE, newE⟩, hm, heq⟩ := List.mem_filterMap.1 hk
  obtain ⟨e, he, heq⟩ := Option.map_eq_some_iff.1 heq
  obtain ⟨hname, rfl⟩ := Prod.mk.inj heq
  obtain ⟨check, hmoves⟩ := (h d hmem).moves
  obtain ⟨hidx', hmoved⟩ := (mem_rowMoves hmoves _).1 hm
  cases index_unique hd hidx' hidx hname
  change oldE = some e at he
  subst he
  exact ⟨d, hmem, leaves_of_moved hmoved⟩

/-- What an update checks of the rows it changes. -/
theorem Change.checked {fuel : Nat} {referential : Option Cascade} {s' : CatState}
    (hs : s.Sound) (hi : image.Indexed)
    (h : Change fuel s table image deltas referential s') :
    image.Checked (deltas.map RowDelta.write) [] := by
  have hd := (hs.wellFormed.tables table image h.found).def_
  constructor
  · rw [List.append_nil, List.forall_mem_map]
    intro d hd
    exact ((h.rows d hd).stored (hs.inOrder _ _ h.found)).symm
  · refine ⟨?_, List.nodup_nil⟩
    rw [List.map_map]
    exact h.nodup hs.inOrder
  · intro idx hidx hu
    rw [List.append_nil]
    intro w hw k hk u hkey
    obtain ⟨d, hmem, rfl⟩ := List.mem_map.1 hw
    have harrives : (idx.name, k) ∈ arriving deltas := by
      rw [arriving_flatMap]
      exact List.mem_flatMap.2 ⟨d, hmem, (h.rows d hmem).arrives hidx hu hk⟩
    obtain ⟨tree, htree, hnone | hleft⟩ := h.free _ harrives
    · obtain ⟨tree', htree', hinv⟩ := hi.trees idx hidx
      cases htree.symm.trans htree'
      rw [(hinv.find_iff k u).2 hkey] at hnone
      cases hnone
    · obtain ⟨d', hmem', hleaves⟩ := leaves_of_mem_leaving hd h.rows hidx hleft
      exact ⟨d'.write, List.mem_map_of_mem hmem', hleaves⟩
  · intro idx hidx hu
    refine ⟨?_, .nil⟩
    rw [List.pairwise_map]
    refine h.apart.imp_of_mem (fun {d d'} hmem hmem' hdisjoint k hk hk' => ?_)
    exact hdisjoint ((h.rows d hmem).arrives hidx hu hk) ((h.rows d' hmem').arrives hidx hu hk')

end Deltas

/-! ## The rows a closure rewrites -/

section Rewrites

variable {s : CatState} {u : String} {a : TableImage} {idx : IndexDef} {k : Bytes} {plan : Cascade}

/-- The writes a closure makes of the rows it rewrites in a table. -/
def Cascade.rewritesOn (plan : Cascade) (u : String) : List RowWrite :=
  writesOn u (plan.rewrites.map rewriteWrite)

theorem Cascade.mem_rewritesOn {w : RowWrite} :
    w ∈ plan.rewritesOn u ↔ ∃ r ∈ plan.rewrites, rewriteWrite r = (u, w) := by
  rw [Cascade.rewritesOn, mem_writesOn, List.mem_map]

/-- The writes to one table are related pairwise when those of it among all writes are. -/
theorem pairwise_writesOn {ws : List (String × RowWrite)} {R : RowWrite → RowWrite → Prop}
    (h : ws.Pairwise (fun x y => x.1 = u → y.1 = u → R x.2 y.2)) : (writesOn u ws).Pairwise R := by
  rw [writesOn, List.pairwise_map, List.pairwise_filter]
  refine h.imp (fun {x y} hxy hx hy => hxy (by simpa using hx) (by simpa using hy))

theorem pairwise_rewritesOn {R : RowWrite → RowWrite → Prop}
    (h : plan.rewrites.Pairwise (fun r r' => (ofLex r.1).1 = u → (ofLex r'.1).1 = u →
      R (rewriteWrite r).2 (rewriteWrite r').2)) : (plan.rewritesOn u).Pairwise R :=
  pairwise_writesOn (List.pairwise_map.2 h)

/-- A closure rewrites stored rows, each once. -/
theorem rewritesOn_stored (hs : s.Sound) {fuel : Nat} {seeds : List (String × Bytes × List Value)}
    {changes : List (String × List Value × List Value)}
    (hplan : planCascade s s.allTables fuel seeds changes = .ok plan)
    (ha : OrdMap.find u s.tables = some a) :
    (∀ w ∈ plan.rewritesOn u, w.old = a.rows w.pkKey) ∧
      ((plan.rewritesOn u).map RowWrite.pkKey).Nodup := by
  constructor
  · intro w hw
    obtain ⟨r, hr, heq⟩ := Cascade.mem_rewritesOn.1 hw
    obtain ⟨rfl, rfl⟩ := Prod.mk.inj heq
    obtain ⟨image, hof⟩ := planCascade_rewriteOf hs.wellFormed hs.inOrder hplan r hr
    cases ha.symm.trans hof.found
    obtain ⟨bytes, hmem, hdec⟩ := hof.stored
    exact ((TableImage.rows_eq_some (hs.inOrder _ _ ha)).2 ⟨bytes, hmem, hdec⟩).symm
  · rw [List.Nodup, List.pairwise_map]
    refine pairwise_rewritesOn ((planCascade_sorted hplan).1.imp ?_)
    intro r r' hlt ht ht' heq
    have hsame : ofLex r.1 = ofLex r'.1 := Prod.ext (ht.trans ht'.symm) heq
    exact absurd (ofLex_inj.1 hsame) (ne_of_lt hlt)

/-- A unique key a rewritten row takes is among those that are checked. -/
theorem takes_of_rewrite (hs : s.Sound) (ha : OrdMap.find u s.tables = some a)
    {r : RowRef × (List Value × List Value)} {ms : List (Option UniqueKey × Option UniqueKey)}
    (hms : movedByRewrite s.allTables r = .ok ms) (hr : (ofLex r.1).1 = u)
    (hidx : idx ∈ a.def_.indexes) (hu : idx.unique = true)
    (hk : ((rewriteWrite r).2.move a.def_ idx).Takes k) :
    (⟨u, idx.name, k⟩ : UniqueKey) ∈ ms.filterMap Prod.snd := by
  have hfound : s.allTables.find? (fun t => t.name = (ofLex r.1).1) = some a.def_ := by
    rw [hs.wellFormed.find_allTables, hr, ha, Option.map_some]
  have hmoves := mem_movedByRewrite hfound hms
  obtain ⟨m, hm⟩ : ∃ m, moved a.def_ idx (ofLex r.1).2 r.2.1 r.2.2 = .ok m := by
    rw [movedByRewrite, hfound] at hms
    obtain ⟨moves, hmoves, -⟩ := Result.bind_eq_ok.1 hms
    obtain ⟨p, -, hp⟩ := Result.exists_of_mapM hmoves (List.mem_filter.2 ⟨hidx, hu⟩)
    obtain ⟨m, hm, -⟩ := Result.bind_eq_ok.1 hp
    exact ⟨m, hm⟩
  obtain ⟨oldE, e, rfl, rfl⟩ := moved_of_takes hm hk
  have hname := (hs.wellFormed.tables u a ha).named
  refine List.mem_filterMap.2 ⟨_, (hmoves _).2 ⟨idx, hidx, hu, _, hm, rfl⟩, ?_⟩
  rw [Option.map_some, uniqueKey, hname]

/-- A unique key that is freed by a rewrite is one a rewritten row leaves. -/
theorem leaves_of_freed (hs : s.Sound) (ha : OrdMap.find u s.tables = some a)
    {moves : List (List (Option UniqueKey × Option UniqueKey))}
    (hof : ∀ r ∈ plan.rewrites, ∃ image, RewriteOf s image r)
    (hmoves : plan.rewrites.mapM (movedByRewrite s.allTables) = .ok moves)
    (hidx : idx ∈ a.def_.indexes)
    (hk : (⟨u, idx.name, k⟩ : UniqueKey) ∈ moves.flatten.filterMap Prod.fst) :
    ∃ w ∈ plan.rewritesOn u, (w.move a.def_ idx).Leaves k := by
  obtain ⟨p, hp, hk⟩ := List.mem_filterMap.1 hk
  obtain ⟨ms, hms, hp⟩ := List.mem_flatten.1 hp
  obtain ⟨r, hr, hstep⟩ := Result.mem_of_mapM hmoves hms
  obtain ⟨image, hof⟩ := hof r hr
  have hfound : s.allTables.find? (fun t => t.name = (ofLex r.1).1) = some image.def_ := by
    rw [hs.wellFormed.find_allTables, hof.found, Option.map_some]
  obtain ⟨idx', hidx', -, m, hm, rfl⟩ := (mem_movedByRewrite hfound hstep p).1 hp
  obtain ⟨e, he, heq⟩ := Option.map_eq_some_iff.1 hk
  rw [uniqueKey, (hs.wellFormed.tables _ image hof.found).named, UniqueKey.mk.injEq] at heq
  obtain ⟨hr', hname, rfl⟩ := heq
  have hsame := hof.found
  rw [hr', ha] at hsame
  cases hsame
  cases index_unique (hs.wellFormed.tables u a ha).def_ hidx' hidx hname
  refine ⟨(rewriteWrite r).2, Cascade.mem_rewritesOn.2 ⟨r, hr, Prod.ext hr' rfl⟩, ?_⟩
  obtain ⟨oldE, newE⟩ := m
  change oldE = some e at he
  subst he
  exact leaves_of_moved hm

/-- What is checked of the rows a closure of changed rows rewrites. -/
theorem rewritesOn_checked (hs : s.Sound) (hi : a.Indexed) {fuel : Nat}
    {changes : List (String × List Value × List Value)}
    (hplan : planCascade s s.allTables fuel [] changes = .ok plan)
    (hvalid : validateCascadeRewrites s s.allTables plan = .ok ())
    (ha : OrdMap.find u s.tables = some a) : a.Checked [] (plan.rewritesOn u) := by
  have hof := planCascade_rewriteOf hs.wellFormed hs.inOrder hplan
  obtain ⟨hstored, hrows⟩ := rewritesOn_stored hs hplan ha
  obtain ⟨⟨⟩, -, hvalid⟩ := Result.bind_eq_ok.1 hvalid
  obtain ⟨deleted, hdeleted, hvalid⟩ := Result.bind_eq_ok.1 hvalid
  obtain ⟨moves, hmoves, hvalid⟩ := Result.bind_eq_ok.1 hvalid
  rw [planCascade_deletes hplan] at hdeleted
  cases hdeleted
  obtain ⟨hnodup, -, hfree⟩ := checkTaken_eq_ok hvalid
  refine ⟨hstored, ⟨List.nodup_nil, hrows⟩, fun idx hidx hu w hw k hk v hv => ?_,
    fun idx hidx hu => ⟨.nil, ?_⟩⟩
  · rw [List.nil_append] at hw ⊢
    obtain ⟨r, hr, heq⟩ := Cascade.mem_rewritesOn.1 hw
    obtain ⟨hu', rfl⟩ := Prod.mk.inj heq
    obtain ⟨ms, hms, hstep⟩ := Result.exists_of_mapM hmoves hr
    have htaken := takes_of_rewrite hs ha hstep hu' hidx hu hk
    obtain ⟨image, tree, himage, htree, hnone | hfreed⟩ :=
      hfree _ (List.filterMap_flatten .. ▸ List.mem_flatten.2 ⟨_, List.mem_map_of_mem hms, htaken⟩)
    · cases ha.symm.trans himage
      obtain ⟨tree', htree', hinv⟩ := hi.trees idx hidx
      cases htree.symm.trans htree'
      rw [(hinv.find_iff k v).2 hv] at hnone
      cases hnone
    · exact leaves_of_freed hs ha hof hmoves hidx hfreed
  · rw [List.filterMap_flatten, List.nodup_flatten, List.pairwise_map] at hnodup
    refine pairwise_rewritesOn (Result.pairwise_of_mapM hmoves hnodup.2 ?_)
    intro r _ r' _ ms ms' hms hms' hdisjoint hr hr' k hk hk'
    exact hdisjoint (takes_of_rewrite hs ha hms hr hidx hu hk)
      (takes_of_rewrite hs ha hms' hr' hidx hu hk')

end Rewrites

/-! ## The rows a delete rewrites -/

section Nulls

variable {s : CatState} {d : TableDef} {idx : IndexDef} {oldRow newRow : List Value}

/-- Cells of a row some of whose cells became NULL, when none of these is NULL. -/
theorem Nulled.indexCols (h : Nulled oldRow newRow)
    (hn : ∀ v ∈ Catalog.indexCols d idx newRow, v.isNull = false) :
    Catalog.indexCols d idx newRow = Catalog.indexCols d idx oldRow := by
  refine List.map_congr_left (fun name hname => ?_)
  have hcell : CheckExpr.cell d newRow name = CheckExpr.cell d oldRow name ∨
      CheckExpr.cell d newRow name = some .null := by
    rw [CheckExpr.cell, CheckExpr.cell]
    cases d.colIndex name with
    | none => exact .inl rfl
    | some ci => exact h ci
  rcases hcell with hcell | hcell
  · rw [hcell]
  · have hnull := hn _ (List.mem_map_of_mem hname)
    rw [hcell] at hnull
    cases hnull

/-- A row some of whose cells became NULL takes no unique key. -/
theorem Nulled.takes_none (h : Nulled oldRow newRow) (hu : idx.unique = true) (pkKey k : Bytes) :
    ¬ (RowWrite.move d idx ⟨pkKey, some oldRow, some newRow⟩).Takes k := by
  rintro ⟨hnew, hold⟩
  change indexKey d idx pkKey (some newRow) = some k at hnew
  refine hold ?_
  show indexKey d idx pkKey (some oldRow) = some k
  obtain ⟨row, hrow, hentry⟩ := indexKey_eq_some.1 hnew
  cases hrow
  have hsame : Catalog.indexCols d idx newRow = Catalog.indexCols d idx oldRow := by
    refine h.indexCols (fun v hv => ?_)
    rw [entryFor, rej_eq_ok, ofType_eq_ok, hu, entry] at hentry
    split at hentry
    · cases hentry
    · next hany =>
      rw [Bool.true_and] at hany
      exact Bool.not_eq_true _ ▸ fun hnull => hany (List.any_eq_true.2 ⟨v, hv, hnull⟩)
  rw [entryFor, hsame] at hentry
  exact indexKey_eq_some.2 ⟨oldRow, rfl, hentry⟩

/-- The closure of deleted rows only sets cells to NULL. -/
theorem planCascade_nulled (hs : s.Sound) {fuel : Nat} {plan : Cascade}
    {seeds : List (String × Bytes × List Value)}
    (h : planCascade s s.allTables fuel seeds [] = .ok plan) :
    ∀ r ∈ plan.rewrites, Nulled r.2.1 r.2.2 := by
  rw [planCascade] at h
  dsimp only at h
  rw [List.map_nil, List.append_nil] at h
  exact (planLoop_invariant (I := OnlyNulls s) (E := CascadeEffect.Nulls) (fun _ _ _ hp => hp.pop)
    (fun c _ _ hE hp => hp.step hs c hE)
    (fun _ _ _ _ hp => ⟨hp.rewrites, hp.forms, hp.queued⟩) h (.seeds seeds)).forms

end Nulls

end Edb.Catalog
