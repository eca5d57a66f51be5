import Edb.Catalog.Job

/-!
# Runs of jobs

What one committed job does, read off its computation: one lemma per row job with the pieces
its proof needs, and the rule by which a property that every part of a job keeps holds in
every state a run reaches. A batch is its writes one after another.
-/

namespace Edb.Catalog

open Edb.Types Edb.Lib

/-! ## Lookups that succeed -/

@[simp] theorem okOr_eq_ok {α : Type} {e : CatalogError} {x : Option α} {a : α} :
    okOr e x = .ok a ↔ x = some a := by
  cases x <;> simp [okOr]

@[simp] theorem require_eq_ok {cond : Bool} {e : CatalogError} {u : Unit} :
    require cond e = .ok u ↔ cond = true := by
  cases cond <;> simp [require]

theorem CatState.load_eq_ok {s : CatState} {table : String} {image : TableImage} :
    s.load table = .ok image ↔ OrdMap.find table s.tables = some image := by
  rw [CatState.load, rej_eq_ok, okOr_eq_ok]

theorem TableImage.indexTree_eq_ok {image : TableImage} {index : String} {tree : TreeContents} :
    image.indexTree index = .ok tree ↔ OrdMap.find index image.indexes = some tree := by
  rw [TableImage.indexTree, rej_eq_ok, okOr_eq_ok]

/-! ## Row statements -/

/-- A change of a stored row, with its own checks made. -/
def ChangedRow (s : CatState) (table : String) (image : TableImage) (d : RowDelta) : Prop :=
  ∃ check now sets bytes, (d.pkKey, bytes) ∈ image.data ∧
    decodePadded image.def_ bytes = .ok d.oldRow ∧
    changeRow check now s table image.def_ d.pkKey d.oldRow sets = .ok d

/-- A unique key of an index is free, or one of those that leave. -/
def TableImage.FreeFor (image : TableImage) (gone : List (String × Bytes)) (x : String × Bytes) :
    Prop :=
  ∃ tree, OrdMap.find x.1 image.indexes = some tree ∧ (OrdMap.find x.2 tree = none ∨ x ∈ gone)

/-- A statement that changes rows of a table and then what refers to them. -/
structure Change (fuel : Nat) (s : CatState) (table : String) (image : TableImage)
    (deltas : List RowDelta) (referential : Option Cascade) (s' : CatState) : Prop where
  found : OrdMap.find table s.tables = some image
  rows : ∀ d ∈ deltas, ChangedRow s table image d
  keys : (deltas.map RowDelta.pkKey).Sublist (image.data.map Prod.fst)
  apart : deltas.Pairwise (fun d d' => (arriving [d]).Disjoint (arriving [d']))
  free : ∀ x ∈ arriving deltas, image.FreeFor (leaving deltas) x
  planned : planReferential fuel s table image.def_ deltas = .ok referential
  applied : applyDeltas s table image deltas referential = .ok s'

/-- A statement that removes rows of a table and what refers to them. -/
structure Removal (fuel : Nat) (s : CatState) (table : String)
    (seeds : List (String × Bytes × List Value)) (plan : Cascade) (s' : CatState) : Prop where
  rows : ∃ image, OrdMap.find table s.tables = some image ∧ ∀ seed ∈ seeds,
    ∃ bytes, seed.1 = table ∧ (seed.2.1, bytes) ∈ image.data ∧
      decodePadded image.def_ bytes = .ok seed.2.2
  planned : planCascade s s.allTables fuel seeds [] = .ok plan
  restricted : checkCascadeRestrict s s.allTables plan = .ok ()
  validated : validateCascadeRewrites s s.allTables plan = .ok ()
  applied : applyCascade s s.allTables plan = .ok s'

section Statements

variable {env : Env} {fuel : Nat} {s s' : CatState} {table : String}

/-- What a change of a row passed. -/
structure ChangeMade (check : EntryCheck) (now : Int64) (s : CatState) (table : String)
    (def_ : TableDef) (sets : List (String × Value)) (d : RowDelta) : Prop where
  transformed : transformRow now table def_ d.oldRow sets = .ok d.newRow
  checked : runChecks def_ d.newRow = .ok ()
  references : checkUpdateFks s def_ d.oldRow d.newRow = .ok ()
  moves : rowMoves check def_ d.pkKey d.oldRow d.newRow def_.indexes = .ok d.moves
  encoded : encodeRow d.newRow = .ok d.bytes

section Changed

variable {check : EntryCheck} {image : TableImage} {now : Int64} {def_ : TableDef}
  {pkKey bytes : Bytes} {oldRow row : List Value} {sets : List (String × Value)} {d : RowDelta}

theorem newForm_eq_ok (h : newForm now s table def_ oldRow sets = .ok row) :
    transformRow now table def_ oldRow sets = .ok row ∧ runChecks def_ row = .ok () ∧
      checkUpdateFks s def_ oldRow row = .ok () := by
  obtain ⟨row', hrow, h⟩ := Result.bind_eq_ok.1 h
  obtain ⟨⟨⟩, hchecks, h⟩ := Result.bind_eq_ok.1 h
  obtain ⟨⟨⟩, hfks, h⟩ := Result.bind_eq_ok.1 h
  cases h
  rw [rej_eq_ok] at hrow hchecks
  exact ⟨hrow, hchecks, hfks⟩

theorem rowDelta_eq_ok (h : rowDelta check def_ pkKey oldRow row = .ok d) :
    ∃ moves bytes, d = ⟨pkKey, bytes, moves, oldRow, row⟩ ∧
      rowMoves check def_ pkKey oldRow row def_.indexes = .ok moves ∧
      encodeRow row = .ok bytes := by
  obtain ⟨moves, hmoves, h⟩ := Result.bind_eq_ok.1 h
  obtain ⟨bytes, hbytes, h⟩ := Result.bind_eq_ok.1 h
  obtain ⟨_, -, h⟩ := Result.bind_eq_ok.1 h
  cases h
  rw [rej_eq_ok, ofType_eq_ok] at hbytes
  exact ⟨moves, bytes, rfl, hmoves, hbytes⟩

theorem changeRow_eq_ok (h : changeRow check now s table def_ pkKey oldRow sets = .ok d) :
    d.pkKey = pkKey ∧ d.oldRow = oldRow ∧ ChangeMade check now s table def_ sets d := by
  obtain ⟨row, hrow, h⟩ := Result.bind_eq_ok.1 h
  obtain ⟨hform, hchecks, hfks⟩ := newForm_eq_ok hrow
  obtain ⟨moves, bytes, rfl, hmoves, hbytes⟩ := rowDelta_eq_ok h
  exact ⟨rfl, rfl, hform, hchecks, hfks, hmoves, hbytes⟩

theorem ChangedRow.of_changeRow (hmem : (pkKey, bytes) ∈ image.data)
    (hrow : decodePadded image.def_ bytes = .ok oldRow)
    (h : changeRow check now s table image.def_ pkKey oldRow sets = .ok d) :
    ChangedRow s table image d := by
  obtain ⟨rfl, rfl, -⟩ := changeRow_eq_ok h
  exact ⟨check, now, sets, bytes, hmem, hrow, h⟩

/-- The entries that arrive passed their check. -/
theorem rowMoves_checked {idxs : List IndexDef}
    {moves : List (IndexDef × Option Entry × Option Entry)}
    (h : rowMoves check def_ pkKey oldRow row idxs = .ok moves) :
    ∀ m ∈ moves, m.1 ∈ idxs ∧ ∀ e, m.2.2 = some e → check m.1 e = .ok () := by
  induction idxs generalizing moves with
  | nil =>
    cases h
    exact fun m hm => absurd hm List.not_mem_nil
  | cons idx idxs ih =>
    obtain ⟨m, hm, h⟩ := Result.bind_eq_ok.1 h
    obtain ⟨⟨⟩, hcheck, h⟩ := Result.bind_eq_ok.1 h
    obtain ⟨rest, hrest, h⟩ := Result.bind_eq_ok.1 h
    cases h
    intro x hx
    rcases List.mem_append.1 hx with hx | hx
    · obtain ⟨m', hm', rfl⟩ := List.mem_map.1 hx
      rw [Option.mem_toList.1 hm'] at hcheck
      refine ⟨List.mem_cons_self, fun e he => ?_⟩
      change m'.2 = some e at he
      rwa [Option.bind_some, he] at hcheck
    · obtain ⟨hmem, hall⟩ := ih hrest x hx
      exact ⟨List.mem_cons_of_mem _ hmem, hall⟩

/-- A unique key that arrives is one of a unique index, and passed its check. -/
theorem ChangeMade.arriving (h : ChangeMade check now s table def_ sets d) {x : String × Bytes}
    (hx : x ∈ arriving [d]) :
    ∃ idx ∈ def_.indexes, ∃ e, idx.unique = true ∧ x = (idx.name, e.key) ∧
      check idx e = .ok () := by
  rw [Catalog.arriving, List.flatMap_singleton] at hx
  obtain ⟨m, hm, hx⟩ := List.mem_filterMap.1 hx
  obtain ⟨hm, hunique⟩ := List.mem_filter.1 hm
  obtain ⟨e, he, rfl⟩ := Option.map_eq_some_iff.1 hx
  obtain ⟨hmem, hcheck⟩ := rowMoves_checked h.moves m hm
  exact ⟨m.1, hmem, e, hunique, rfl, hcheck e he⟩

end Changed

theorem arriving_flatMap (deltas : List RowDelta) :
    arriving deltas = deltas.flatMap (fun d => arriving [d]) := by
  simp only [arriving, List.flatMap_cons, List.flatMap_nil, List.append_nil]

/-- The probe of one row's keys finds them free. -/
theorem freeFor_of_probe {image : TableImage} {gone : List (String × Bytes)} {idx : IndexDef}
    {e : Entry} (hunique : idx.unique = true)
    (h : probeArriving table image idx e = .ok ()) : image.FreeFor gone (idx.name, e.key) := by
  rw [probeArriving, if_pos hunique] at h
  obtain ⟨tree, htree, h⟩ := Result.bind_eq_ok.1 h
  obtain ⟨⟨⟩, h, -⟩ := Result.bind_eq_ok.1 h
  rw [rej_eq_ok, require_eq_ok, Option.isNone_iff_eq_none] at h
  exact ⟨tree, TableImage.indexTree_eq_ok.1 htree, .inl h⟩

/-- A key that joins others is not among them. -/
theorem not_mem_of_join {added : List (String × Bytes)} {idx : IndexDef} {e : Entry}
    (hunique : idx.unique = true) (h : joinArriving table added idx e = .ok ()) :
    (idx.name, e.key) ∉ added := by
  obtain ⟨_, -, h⟩ := Result.bind_eq_ok.1 h
  rw [rej_eq_ok, require_eq_ok, hunique, Bool.true_and] at h
  simpa using h

/-- Keys of unique indexes that are checked together are free, or leave. -/
theorem checkArriving_eq_ok {image : TableImage} {gone added : List (String × Bytes)}
    (h : checkArriving table image gone added = .ok ()) {x : String × Bytes} (hx : x ∈ added)
    {idx : IndexDef} (hidx : idx ∈ image.def_.indexes) (hunique : idx.unique = true)
    (hname : x.1 = idx.name) : image.FreeFor gone x := by
  have h := Result.forM_eq_ok.1 h idx (List.mem_filter.2 ⟨hidx, hunique⟩)
  obtain ⟨tree, htree, h⟩ := Result.bind_eq_ok.1 h
  have h := Result.forM_eq_ok.1 h x (List.mem_filter.2 ⟨hx, decide_eq_true hname⟩)
  rw [rej_eq_ok, require_eq_ok, Bool.or_eq_true, Option.isNone_iff_eq_none,
    List.contains_iff_mem] at h
  rw [TableImage.indexTree_eq_ok, ← hname] at htree
  exact ⟨tree, htree, h⟩

/-- What a row passed to be staged after others. -/
structure RowStaged (env : Env) (s : CatState) (image : TableImage) (st : Staged)
    (provided : List (String × Value)) (r : StagedRow) (seq : Int64) : Prop where
  built : buildRow env st.rows.length image.def_ provided st.seq = .ok (r.row, seq)
  checked : runChecks image.def_ r.row = .ok ()
  references : checkInsertFks s image.def_ r.row st.pks = .ok ()
  key : pkKeyOf image.def_ r.row = .ok r.pkKey
  fresh : r.pkKey ∉ st.pks ∧ OrdMap.find r.pkKey image.data = none
  entries : stageEntries image r.row r.pkKey st.unique image.def_.indexes = .ok r.entries
  encoded : encodeRow r.row = .ok r.bytes

/-- A row is staged behind the others, and its unique keys with it. -/
theorem stageRow_eq_ok {image : TableImage} {st st' : Staged} {provided : List (String × Value)}
    (h : stageRow env s image st provided = .ok st') :
    ∃ r, RowStaged env s image st provided r st'.seq ∧ st'.rows = st.rows ++ [r] ∧
      st'.unique = st.unique ++
        (r.entries.filter (fun e => e.1.unique)).map (fun e => (e.1.name, e.2.key)) := by
  obtain ⟨⟨row, seq⟩, hrow, h⟩ := Result.bind_eq_ok.1 h
  obtain ⟨⟨⟩, hchecks, h⟩ := Result.bind_eq_ok.1 h
  obtain ⟨⟨⟩, hfks, h⟩ := Result.bind_eq_ok.1 h
  obtain ⟨pkKey, hkey, h⟩ := Result.bind_eq_ok.1 h
  obtain ⟨⟨⟩, hfresh, h⟩ := Result.bind_eq_ok.1 h
  obtain ⟨entries, hentries, h⟩ := Result.bind_eq_ok.1 h
  obtain ⟨bytes, hbytes, h⟩ := Result.bind_eq_ok.1 h
  obtain ⟨_, -, h⟩ := Result.bind_eq_ok.1 h
  cases h
  simp only [rej_eq_ok, ofType_eq_ok, require_eq_ok] at hrow hchecks hkey hfresh hbytes
  exact ⟨⟨pkKey, bytes, entries, row⟩,
    ⟨hrow, hchecks, hfks, hkey, by simpa using hfresh, hentries, hbytes⟩, rfl, rfl⟩

/-- What an insert that returns has staged and stored. -/
theorem insert_eq_ok {input : List (List (String × Value))} {rows : List (List Value)}
    (h : insert env s table input = .ok (rows, s')) :
    ∃ image st image', OrdMap.find table s.tables = some image ∧
      input.foldlM (stageRow env s image) ⟨[], [], startSeq s image.def_⟩ = .ok st ∧
      st.rows.foldlM applyStaged image = .ok image' ∧
      s' = if st.seq ≠ startSeq s image.def_ then (s.store table image').storeSeq table st.seq
        else s.store table image' := by
  obtain ⟨image, himage, h⟩ := Result.bind_eq_ok.1 h
  obtain ⟨_, -, h⟩ := Result.bind_eq_ok.1 h
  obtain ⟨st, hst, h⟩ := Result.bind_eq_ok.1 h
  obtain ⟨image', himage', h⟩ := Result.bind_eq_ok.1 h
  cases h
  exact ⟨image, st, image', CatState.load_eq_ok.1 himage, hst, himage', rfl⟩

/-- What an update that returns has found, checked, planned and applied. -/
theorem update_eq_ok {pk : List Value} {sets : List (String × Value)} {row : List Value}
    (h : update env fuel s table pk sets = .ok (row, s')) :
    ∃ image pkKey bytes oldRow d referential,
      (encodePk table image.def_ pk = .ok pkKey ∧ OrdMap.find pkKey image.data = some bytes ∧
        decodePadded image.def_ bytes = .ok oldRow ∧
        changeRow (probeArriving table image) (env.now 0 0) s table image.def_ pkKey oldRow sets =
          .ok d) ∧
      Change fuel s table image [d] referential s' := by
  obtain ⟨image, himage, h⟩ := Result.bind_eq_ok.1 h
  obtain ⟨_, -, h⟩ := Result.bind_eq_ok.1 h
  obtain ⟨pkKey, hpk, h⟩ := Result.bind_eq_ok.1 h
  obtain ⟨bytes, hbytes, h⟩ := Result.bind_eq_ok.1 h
  obtain ⟨oldRow, hold, h⟩ := Result.bind_eq_ok.1 h
  obtain ⟨row, hform, h⟩ := Result.bind_eq_ok.1 h
  obtain ⟨referential, hplan, h⟩ := Result.bind_eq_ok.1 h
  obtain ⟨d, hd, h⟩ := Result.bind_eq_ok.1 h
  obtain ⟨s₁, happly, h⟩ := Result.bind_eq_ok.1 h
  cases h
  simp only [rej_eq_ok, okOr_eq_ok] at hpk hbytes hold
  have hchange : changeRow (probeArriving table image) (env.now 0 0) s table image.def_ pkKey
      oldRow sets = .ok d := Result.bind_eq_ok.2 ⟨row, hform, hd⟩
  obtain ⟨moves, bytes', rfl, -, -⟩ := rowDelta_eq_ok hd
  have hmem := OrdMap.mem_of_find hbytes
  refine ⟨image, pkKey, bytes, oldRow, _, referential, ⟨hpk, hbytes, hold, hchange⟩,
    CatState.load_eq_ok.1 himage, ?_, ?_, List.pairwise_singleton _ _, ?_, hplan, happly⟩
  · intro d' hd'
    rw [List.mem_singleton.1 hd']
    exact .of_changeRow hmem hold hchange
  · exact List.singleton_sublist.2 (List.mem_map_of_mem hmem)
  · intro x hx
    obtain ⟨idx, -, e, hunique, rfl, hcheck⟩ := (changeRow_eq_ok hchange).2.2.arriving hx
    exact freeFor_of_probe hunique hcheck

/-- The rows a policy changes are stored rows, in key order, that take different unique keys. -/
theorem matchRows_eq_ok {image : TableImage} {policy : RowUpdater} {ordinal : Nat}
    {added : List (String × Bytes)} {data : TreeContents} {deltas : List RowDelta}
    (h : matchRows env s table image.def_ policy ordinal added data = .ok deltas)
    (hsub : data.Sublist image.data) :
    (∀ d ∈ deltas, ChangedRow s table image d ∧ (arriving [d]).Disjoint added) ∧
      (deltas.map RowDelta.pkKey).Sublist (data.map Prod.fst) ∧
      deltas.Pairwise (fun d d' => (arriving [d]).Disjoint (arriving [d'])) := by
  induction data generalizing ordinal added deltas with
  | nil =>
    cases h
    exact ⟨fun d hd => absurd hd List.not_mem_nil, List.Sublist.slnil, List.Pairwise.nil⟩
  | cons e data ih =>
    obtain ⟨pkKey, bytes⟩ := e
    have hrest := (List.sublist_cons_self (pkKey, bytes) data).trans hsub
    have hmem : (pkKey, bytes) ∈ image.data := hsub.subset (by simp)
    obtain ⟨oldRow, hold, h⟩ := Result.bind_eq_ok.1 h
    obtain ⟨hit, -, h⟩ := Result.bind_eq_ok.1 h
    cases hit with
    | false =>
      obtain ⟨hrows, hkeys, hapart⟩ := ih h hrest
      exact ⟨hrows, hkeys.cons _, hapart⟩
    | true =>
      obtain ⟨sets, -, h⟩ := Result.bind_eq_ok.1 h
      obtain ⟨d, hd, h⟩ := Result.bind_eq_ok.1 h
      obtain ⟨deltas', hdeltas, h⟩ := Result.bind_eq_ok.1 h
      cases h
      -- the rows after are checked against the keys of this row too
      obtain ⟨hrows, hkeys, hapart⟩ := ih hdeltas hrest
      refine ⟨List.forall_mem_cons.2 ⟨⟨.of_changeRow hmem (rej_eq_ok.1 hold) hd, ?_⟩, ?_⟩, ?_,
        List.pairwise_cons.2 ⟨?_, hapart⟩⟩
      · intro x hx
        obtain ⟨idx, -, e, hunique, rfl, hcheck⟩ := (changeRow_eq_ok hd).2.2.arriving hx
        exact not_mem_of_join hunique hcheck
      · exact fun d' hd' => ⟨(hrows d' hd').1, (List.disjoint_append_right.1 (hrows d' hd').2).1⟩
      · rw [List.map_cons, List.map_cons, (changeRow_eq_ok hd).1]
        exact hkeys.cons_cons _
      · intro d' hd' x hx hx'
        exact (List.disjoint_append_right.1 (hrows d' hd').2).2 hx' hx

/-- A policy selects a stored row of a table. -/
def RowUpdater.Selects (policy : RowUpdater) (def_ : TableDef) (data : TreeContents) : Prop :=
  ∃ e ∈ data, ∃ row, decodePadded def_ e.2 = .ok row ∧ policy.selects def_ row = .ok true

/-- A policy that selects no row changes none. -/
theorem matchRows_nil {def_ : TableDef} {policy : RowUpdater} {ordinal : Nat}
    {added : List (String × Bytes)} {data : TreeContents} {deltas : List RowDelta}
    (h : matchRows env s table def_ policy ordinal added data = .ok deltas) (hne : deltas ≠ []) :
    policy.Selects def_ data := by
  induction data generalizing ordinal deltas with
  | nil =>
    cases h
    exact absurd rfl hne
  | cons e data ih =>
    obtain ⟨pkKey, bytes⟩ := e
    obtain ⟨oldRow, hold, h⟩ := Result.bind_eq_ok.1 h
    obtain ⟨hit, hhit, h⟩ := Result.bind_eq_ok.1 h
    cases hit with
    | false =>
      obtain ⟨e, he, hsel⟩ := ih h hne
      exact ⟨e, List.mem_cons_of_mem _ he, hsel⟩
    | true =>
      exact ⟨(pkKey, bytes), by simp, oldRow, rej_eq_ok.1 hold, rej_eq_ok.1 hhit⟩

/-- What an `update_where` that returns has matched and applied. -/
theorem updateWhere_eq_ok {policy : RowUpdater} {count : Nat}
    (h : updateWhere env fuel s table policy = .ok (count, s')) :
    ∃ image deltas referential,
      matchRows env s table image.def_ policy 0 [] image.data = .ok deltas ∧
      Change fuel s table image deltas referential s' := by
  obtain ⟨image, himage, h⟩ := Result.bind_eq_ok.1 h
  obtain ⟨_, -, h⟩ := Result.bind_eq_ok.1 h
  obtain ⟨deltas, hdeltas, h⟩ := Result.bind_eq_ok.1 h
  obtain ⟨_, harr, h⟩ := Result.bind_eq_ok.1 h
  obtain ⟨referential, hplan, h⟩ := Result.bind_eq_ok.1 h
  obtain ⟨s₁, happly, h⟩ := Result.bind_eq_ok.1 h
  cases h
  obtain ⟨hrows, hkeys, hapart⟩ := matchRows_eq_ok hdeltas (List.Sublist.refl _)
  refine ⟨image, deltas, referential, hdeltas, CatState.load_eq_ok.1 himage,
    fun d hd => (hrows d hd).1, hkeys, hapart, fun x hx => ?_, hplan, happly⟩
  have hx' := hx
  rw [arriving_flatMap] at hx'
  obtain ⟨d, hd, hx'⟩ := List.mem_flatMap.1 hx'
  obtain ⟨check, now, sets, bytes, -, -, hd⟩ := (hrows d hd).1
  obtain ⟨idx, hidx, e, hunique, rfl, -⟩ := (changeRow_eq_ok hd).2.2.arriving hx'
  exact checkArriving_eq_ok harr hx hidx hunique rfl

theorem deleteSeeds_eq_ok {seeds : List (String × Bytes × List Value)}
    (h : deleteSeeds fuel s seeds = .ok s')
    (hrows : ∃ image, OrdMap.find table s.tables = some image ∧ ∀ seed ∈ seeds,
      ∃ bytes, seed.1 = table ∧ (seed.2.1, bytes) ∈ image.data ∧
        decodePadded image.def_ bytes = .ok seed.2.2) :
    ∃ plan, Removal fuel s table seeds plan s' := by
  obtain ⟨plan, hplan, h⟩ := Result.bind_eq_ok.1 h
  obtain ⟨_, hrestrict, h⟩ := Result.bind_eq_ok.1 h
  obtain ⟨_, hvalid, h⟩ := Result.bind_eq_ok.1 h
  exact ⟨plan, hrows, hplan, hrestrict, hvalid, h⟩

/-- A delete that returns changes nothing, or removes its row and what its cascade dooms. -/
theorem delete_eq_ok {pk : List Value} {done : Bool}
    (h : delete fuel s table pk = .ok (done, s')) :
    s' = s ∨ ∃ seeds plan, Removal fuel s table seeds plan s' := by
  obtain ⟨image, himage, h⟩ := Result.bind_eq_ok.1 h
  obtain ⟨pkKey, -, h⟩ := Result.bind_eq_ok.1 h
  split at h
  · cases h
    exact .inl rfl
  · next bytes hbytes =>
    obtain ⟨row, hrow, h⟩ := Result.bind_eq_ok.1 h
    obtain ⟨s₁, hs₁, h⟩ := Result.bind_eq_ok.1 h
    cases h
    refine .inr ⟨_, deleteSeeds_eq_ok hs₁ ⟨image, CatState.load_eq_ok.1 himage, ?_⟩⟩
    intro seed hseed
    rw [List.mem_singleton.1 hseed]
    exact ⟨bytes, rfl, OrdMap.mem_of_find hbytes, rej_eq_ok.1 hrow⟩

/-- The rows a filter selects are stored rows. -/
theorem seedRows_eq_ok {def_ : TableDef} {filter : RowFilter} {data : TreeContents}
    {seeds : List (String × Bytes × List Value)}
    (h : seedRows table def_ filter data = .ok seeds) :
    ∀ seed ∈ seeds, ∃ bytes, seed.1 = table ∧ (seed.2.1, bytes) ∈ data ∧
      decodePadded def_ bytes = .ok seed.2.2 := by
  induction data generalizing seeds with
  | nil =>
    cases h
    intro seed hseed
    cases hseed
  | cons e data ih =>
    obtain ⟨pkKey, bytes⟩ := e
    obtain ⟨row, hrow, h⟩ := Result.bind_eq_ok.1 h
    obtain ⟨hit, -, h⟩ := Result.bind_eq_ok.1 h
    obtain ⟨rest, hrest, h⟩ := Result.bind_eq_ok.1 h
    have hih : ∀ seed ∈ rest, ∃ bytes', seed.1 = table ∧ (seed.2.1, bytes') ∈ (pkKey, bytes) :: data
        ∧ decodePadded def_ bytes' = .ok seed.2.2 := by
      intro seed hseed
      obtain ⟨bytes', ht, hmem, hdec⟩ := ih hrest seed hseed
      exact ⟨bytes', ht, List.mem_cons_of_mem _ hmem, hdec⟩
    cases hit with
    | false =>
      cases h
      exact hih
    | true =>
      cases h
      intro seed hseed
      rcases List.mem_cons.1 hseed with rfl | hseed
      · exact ⟨bytes, rfl, by simp, rej_eq_ok.1 hrow⟩
      · exact hih seed hseed

/-- A `delete_where` that returns changes nothing, or removes its rows and what their cascade
dooms. -/
theorem deleteWhere_eq_ok {filter : RowFilter} {count : Nat}
    (h : deleteWhere fuel s table filter = .ok (count, s')) :
    s' = s ∨ ∃ seeds plan, Removal fuel s table seeds plan s' := by
  obtain ⟨image, himage, h⟩ := Result.bind_eq_ok.1 h
  obtain ⟨seeds, hseeds, h⟩ := Result.bind_eq_ok.1 h
  split at h
  · cases h
    exact .inl rfl
  · obtain ⟨s₁, hs₁, h⟩ := Result.bind_eq_ok.1 h
    cases h
    exact .inr ⟨seeds, deleteSeeds_eq_ok hs₁
      ⟨image, CatState.load_eq_ok.1 himage, seedRows_eq_ok hseeds⟩⟩

end Statements

/-! ## Definition jobs -/

section Definitions

variable {s s' : CatState} {table : String}

/-- What creating a table has checked and added. -/
theorem createTable_eq_ok {def_ : TableDef} (h : createTable s def_ = .ok s') :
    let d := def_.materializeImplicitIndexes
    d.validate = .ok () ∧ validateFks s d = .ok () ∧ OrdMap.find d.name s.tables = none ∧
      s'.tables = OrdMap.insert d.name ⟨d, [], emptyIndexes d.indexes⟩ s.tables := by
  obtain ⟨⟨⟩, hvalid, h⟩ := Result.bind_eq_ok.1 h
  obtain ⟨⟨⟩, hfks, h⟩ := Result.bind_eq_ok.1 h
  obtain ⟨⟨⟩, hfresh, h⟩ := Result.bind_eq_ok.1 h
  obtain ⟨_, -, h⟩ := Result.bind_eq_ok.1 h
  obtain ⟨_, -, h⟩ := Result.bind_eq_ok.1 h
  obtain ⟨_, -, h⟩ := Result.bind_eq_ok.1 h
  rw [rej_eq_ok, checkFresh, require_eq_ok, Option.isNone_iff_eq_none] at hfresh
  refine ⟨rej_eq_ok.1 hvalid, rej_eq_ok.1 hfks, hfresh, ?_⟩
  split at h
  · obtain ⟨_, -, h⟩ := Result.bind_eq_ok.1 h
    cases h
    rfl
  · cases h
    rfl

/-- A table is dropped when no other refers to it. -/
theorem dropTable_eq_ok (h : dropTable s table = .ok s') :
    referencing s table = [] ∧ s'.tables = OrdMap.erase table s.tables := by
  obtain ⟨image, -, h⟩ := Result.bind_eq_ok.1 h
  obtain ⟨⟨⟩, hfree, h⟩ := Result.bind_eq_ok.1 h
  cases h
  refine ⟨?_, rfl⟩
  rw [rej_eq_ok, checkUnreferenced] at hfree
  split at hfree
  · cases hfree
  · next hnil => exact List.head?_eq_none_iff.1 hnil

/-- A definition with a column added behind the others. -/
def TableDef.widen (d : TableDef) (column : ColumnDef) : TableDef :=
  { d with columns := d.columns ++ [column] }

/-- What adding a column has checked and backfilled. -/
theorem addColumn_eq_ok {column : ColumnDef} (h : addColumn s table column = .ok s') :
    ∃ image backfills image', OrdMap.find table s.tables = some image ∧
      image.def_.colIndex column.name = none ∧ backfillable column = true ∧
      (image.def_.widen column).materializeImplicitIndexes.validate = .ok () ∧
      computeBackfills (image.def_.widen column).materializeImplicitIndexes image.data
        (image.def_.widen column).neededIndexes = .ok backfills ∧
      backfills.foldlM (fun image b => applyBackfill image b.1 b.2)
        { image with def_ := (image.def_.widen column).materializeImplicitIndexes } = .ok image' ∧
      s' = s.store table image' := by
  obtain ⟨image, himage, h⟩ := Result.bind_eq_ok.1 h
  obtain ⟨⟨⟩, hfresh, h⟩ := Result.bind_eq_ok.1 h
  obtain ⟨⟨⟩, hback, h⟩ := Result.bind_eq_ok.1 h
  obtain ⟨⟨⟩, hvalid, h⟩ := Result.bind_eq_ok.1 h
  obtain ⟨_, -, h⟩ := Result.bind_eq_ok.1 h
  obtain ⟨backfills, hfills, h⟩ := Result.bind_eq_ok.1 h
  obtain ⟨image', hfold, h⟩ := Result.bind_eq_ok.1 h
  cases h
  rw [rej_eq_ok, require_eq_ok, Option.isNone_iff_eq_none] at hfresh
  rw [rej_eq_ok, require_eq_ok] at hback
  exact ⟨image, backfills, image', CatState.load_eq_ok.1 himage, hfresh, hback,
    rej_eq_ok.1 hvalid, hfills, hfold, rfl⟩

/-- What creating an index has checked and backfilled. -/
theorem createIndex_eq_ok {index : IndexDef} (h : createIndex s table index = .ok s') :
    ∃ image entries tree, OrdMap.find table s.tables = some image ∧
      image.def_.indexPos index.name = none ∧
      { image.def_ with indexes := image.def_.indexes ++ [index] }.validate = .ok () ∧
      computeBackfill { image.def_ with indexes := image.def_.indexes ++ [index] } index []
        image.data = .ok entries ∧
      buildTree entries = .ok tree ∧
      s' = s.store table ⟨{ image.def_ with indexes := image.def_.indexes ++ [index] },
        image.data, OrdMap.insert index.name tree image.indexes⟩ := by
  obtain ⟨image, himage, h⟩ := Result.bind_eq_ok.1 h
  obtain ⟨⟨⟩, hfresh, h⟩ := Result.bind_eq_ok.1 h
  obtain ⟨⟨⟩, hvalid, h⟩ := Result.bind_eq_ok.1 h
  obtain ⟨_, -, h⟩ := Result.bind_eq_ok.1 h
  obtain ⟨entries, hentries, h⟩ := Result.bind_eq_ok.1 h
  obtain ⟨image', himage', h⟩ := Result.bind_eq_ok.1 h
  cases h
  obtain ⟨tree, htree, h⟩ := Result.bind_eq_ok.1 himage'
  obtain ⟨_, -, h⟩ := Result.bind_eq_ok.1 h
  cases h
  rw [rej_eq_ok, require_eq_ok, Option.isNone_iff_eq_none] at hfresh
  exact ⟨image, entries, tree, CatState.load_eq_ok.1 himage, hfresh, rej_eq_ok.1 hvalid,
    hentries, htree, rfl⟩

/-- What dropping an index has checked and removed. -/
theorem dropIndex_eq_ok {index : String} (h : dropIndex s table index = .ok s') :
    ∃ image pos, OrdMap.find table s.tables = some image ∧
      image.def_.indexPos index = some pos ∧
      image.def_.indexes[pos]?.any image.def_.backsUniqueColumn = false ∧
      s' = s.store table ⟨{ image.def_ with indexes := image.def_.indexes.eraseIdx pos },
        image.data, OrdMap.erase index image.indexes⟩ := by
  obtain ⟨image, himage, h⟩ := Result.bind_eq_ok.1 h
  obtain ⟨pos, hpos, h⟩ := Result.bind_eq_ok.1 h
  obtain ⟨_, -, h⟩ := Result.bind_eq_ok.1 h
  obtain ⟨_, -, h⟩ := Result.bind_eq_ok.1 h
  cases h
  obtain ⟨pos', hpos', h⟩ := Result.bind_eq_ok.1 (rej_eq_ok.1 hpos)
  obtain ⟨_, hback, h⟩ := Result.bind_eq_ok.1 h
  cases h
  rw [require_eq_ok] at hback
  exact ⟨image, pos, CatState.load_eq_ok.1 himage, okOr_eq_ok.1 hpos', by simpa using hback, rfl⟩

end Definitions

/-! ## Runs -/

/-- The job one write of a batch is. -/
def WriteSpec.job : WriteSpec → JobOp
  | .insert table rows => .insert table rows
  | .update table policy => .updateWhere table policy
  | .delete table filter => .deleteWhere table filter

/-- What is asked of a job, with the readings, the fuel and the state it starts from. -/
abbrev JobCond := Env → Nat → CatState → JobOp → Prop

/-- Every write of a batch meets a condition in the state it starts from. -/
def SpecsMeet (C : JobCond) (envs : Nat → Env) (fuel : Nat) :
    Nat → CatState → List WriteSpec → Prop
  | _, _, [] => True
  | i, s, spec :: specs => C (envs i) fuel s spec.job ∧
    ∀ count s', applySpec (envs i) fuel s spec = .ok (count, s') →
      SpecsMeet C envs fuel (i + 1) s' specs

/-- A job meets a condition; a batch does in every one of its writes. -/
def Meets (C : JobCond) (envs : Nat → Env) (fuel : Nat) (s : CatState) : JobOp → Prop
  | .batch specs => SpecsMeet C envs fuel 0 s specs
  | op => C (envs 0) fuel s op

/-- The states a run of committed jobs goes through when every job meets a condition. -/
inductive RunWhere (C : JobCond) : List JobOp → CatState → Prop
  | nil : RunWhere C [] .empty
  | snoc {ops : List JobOp} {s s' : CatState} {op : JobOp} {envs : Nat → Env} {fuel : Nat}
      {out : JobOut} (hr : RunWhere C ops s) (hm : Meets C envs fuel s op)
      (hc : apply envs fuel s op = .ok (out, s')) : RunWhere C (ops ++ [op]) s'

/-- A property every job other than a batch keeps, when it meets a condition. -/
def Keeps (C : JobCond) (I : CatState → Prop) : Prop :=
  ∀ envs fuel s op out s', (∀ specs, op ≠ .batch specs) → C (envs 0) fuel s op →
    apply envs fuel s op = .ok (out, s') → I s → I s'

section Keeps

variable {C : JobCond} {I : CatState → Prop}

/-- One write of a batch is the job it is. -/
theorem apply_job {env : Env} {fuel : Nat} {s s' : CatState} {spec : WriteSpec} {count : Nat}
    (h : applySpec env fuel s spec = .ok (count, s')) :
    ∃ out, apply (fun _ => env) fuel s spec.job = .ok (out, s') := by
  cases spec with
  | insert table rows =>
    obtain ⟨⟨out, s₁⟩, hout, h⟩ := Result.bind_eq_ok.1 h
    cases h
    exact ⟨.rows out, Result.bind_eq_ok.2 ⟨_, hout, rfl⟩⟩
  | update table policy => exact ⟨.affected count, Result.bind_eq_ok.2 ⟨_, h, rfl⟩⟩
  | delete table filter => exact ⟨.affected count, Result.bind_eq_ok.2 ⟨_, h, rfl⟩⟩

theorem WriteSpec.job_ne_batch (spec : WriteSpec) (specs : List WriteSpec) :
    spec.job ≠ .batch specs := by
  cases spec <;> intro h <;> cases h

/-- What every job keeps, a batch keeps. -/
theorem Keeps.batch (hk : Keeps C I) {envs : Nat → Env} {fuel i : Nat} {s s' : CatState}
    {specs : List WriteSpec} {counts : List Nat} (hm : SpecsMeet C envs fuel i s specs)
    (h : batch envs fuel i s specs = .ok (counts, s')) (hs : I s) : I s' := by
  induction specs generalizing i s counts with
  | nil =>
    cases h
    exact hs
  | cons spec specs ih =>
    obtain ⟨⟨count, s₁⟩, hspec, h⟩ := Result.bind_eq_ok.1 h
    obtain ⟨⟨counts', s₂⟩, hrest, h⟩ := Result.bind_eq_ok.1 h
    cases h
    obtain ⟨out, hout⟩ := apply_job hspec
    have hs₁ : I s₁ := hk _ _ _ _ _ _ spec.job_ne_batch hm.1 hout hs
    exact ih (hm.2 count s₁ hspec) hrest hs₁

/-- A job that meets the condition, batches included, keeps the property. -/
theorem Keeps.apply (hk : Keeps C I) {envs : Nat → Env} {fuel : Nat} {s s' : CatState}
    {op : JobOp} {out : JobOut} (hm : Meets C envs fuel s op)
    (hc : apply envs fuel s op = .ok (out, s')) (hs : I s) : I s' := by
  by_cases hb : ∃ specs, op = .batch specs
  · obtain ⟨specs, rfl⟩ := hb
    obtain ⟨⟨counts, s₁⟩, hbatch, hc⟩ := Result.bind_eq_ok.1 hc
    cases hc
    exact hk.batch hm hbatch hs
  · have hne : ∀ specs, op ≠ .batch specs := fun specs he => hb ⟨specs, he⟩
    refine hk envs fuel s op out s' hne ?_ hc hs
    cases op with
    | batch specs => exact absurd rfl (hne specs)
    | _ => exact hm

/-- A property of the empty catalog that every job keeps holds in every state of a run. -/
theorem RunWhere.induct (hk : Keeps C I) (h0 : I .empty) {ops : List JobOp} {s : CatState}
    (h : RunWhere C ops s) : I s := by
  induction h with
  | nil => exact h0
  | snoc _ hm hc ih => exact hk.apply hm hc ih

/-- The states that jobs which meet a condition lead to from a state. -/
inductive RunFrom (C : JobCond) (s₀ : CatState) : CatState → Prop
  | refl : RunFrom C s₀ s₀
  | snoc {s s' : CatState} {op : JobOp} {envs : Nat → Env} {fuel : Nat} {out : JobOut}
      (hr : RunFrom C s₀ s) (hm : Meets C envs fuel s op)
      (hc : Catalog.apply envs fuel s op = .ok (out, s')) : RunFrom C s₀ s'

theorem RunFrom.induct (hk : Keeps C I) {s₀ s : CatState} (h0 : I s₀) (h : RunFrom C s₀ s) :
    I s := by
  induction h with
  | refl => exact h0
  | snoc _ hm hc ih => exact hk.apply hm hc ih

end Keeps

/-- A run whose jobs meet a condition is a run. -/
theorem RunWhere.run {C : JobCond} {ops : List JobOp} {s : CatState} (h : RunWhere C ops s) :
    Run ops s := by
  induction h with
  | nil => exact .nil
  | snoc _ _ hc ih => exact .snoc ih ⟨_, _, _, hc⟩

/-- The condition that asks nothing. -/
abbrev Free : JobCond := fun _ _ _ _ => True

theorem meets_free (envs : Nat → Env) (fuel : Nat) (s : CatState) (op : JobOp) :
    Meets Free envs fuel s op := by
  have hspecs : ∀ specs i s, SpecsMeet Free envs fuel i s specs := by
    intro specs
    induction specs with
    | nil =>
      intro i s
      trivial
    | cons spec specs ih =>
      intro i s
      exact ⟨trivial, fun count s' _ => ih (i + 1) s'⟩
  cases op with
  | batch specs => exact hspecs specs 0 s
  | _ => trivial

/-- A run is a run under the condition that asks nothing. -/
theorem Run.free {ops : List JobOp} {s : CatState} (h : Run ops s) : RunWhere Free ops s := by
  induction h with
  | nil => exact .nil
  | snoc _ hc ih =>
    obtain ⟨envs, fuel, out, hc⟩ := hc
    exact ih.snoc (meets_free envs fuel _ _) hc

/-! ## Running jobs -/

/-- The state after some jobs, each with its own readings, as long as each passes a test. -/
def runJobs (test : CatState → JobOp → Bool) (envs : Nat → Env) (fuel : Nat) :
    Nat → CatState → List JobOp → Option CatState
  | _, s, [] => some s
  | i, s, op :: ops =>
    if test s op then
      (apply (fun _ => envs i) fuel s op).toOption.bind fun r =>
        runJobs test envs fuel (i + 1) r.2 ops
    else none

theorem RunWhere.append {C : JobCond} {test : CatState → JobOp → Bool} {envs : Nat → Env}
    {fuel i : Nat} {before ops : List JobOp} {s s' : CatState}
    (hC : ∀ op ∈ ops, ∀ env s, test s op = true → Meets C (fun _ => env) fuel s op)
    (hs : RunWhere C before s) (h : runJobs test envs fuel i s ops = some s') :
    RunWhere C (before ++ ops) s' := by
  induction ops generalizing i before s with
  | nil =>
    cases h
    rw [List.append_nil]
    exact hs
  | cons op ops ih =>
    rw [runJobs] at h
    split at h
    · next htest =>
      obtain ⟨⟨out, s₁⟩, hop, h⟩ := Option.bind_eq_some_iff.1 h
      have hs₁ := hs.snoc (hC op List.mem_cons_self (envs i) s htest)
        (Result.toOption_eq_some hop)
      have := ih (fun op hop => hC op (List.mem_cons_of_mem _ hop)) hs₁ h
      rwa [List.append_assoc] at this
    · cases h

/-- A run whose jobs each passed a test in the state they start from, with what was tested of
the state it reached. -/
theorem RunWhere.evalTested {C : JobCond} (test : CatState → JobOp → Bool) (envs : Nat → Env)
    (fuel : Nat) (ops : List JobOp) (p : CatState → Bool)
    (hC : ∀ op ∈ ops, ∀ env s, test s op = true → Meets C (fun _ => env) fuel s op)
    (h : (runJobs test envs fuel 0 .empty ops).any p = true) :
    ∃ s, RunWhere C ops s ∧ p s = true := by
  obtain ⟨s, hrun, hp⟩ := (Option.any_eq_true _ _).1 h
  exact ⟨s, RunWhere.append hC .nil hrun, hp⟩

/-- A run that was evaluated, with what was tested of the state it reached. -/
theorem RunWhere.eval {C : JobCond} (envs : Nat → Env) (fuel : Nat) (ops : List JobOp)
    (p : CatState → Bool) (hC : ∀ op ∈ ops, ∀ env s, Meets C (fun _ => env) fuel s op)
    (h : (runJobs (fun _ _ => true) envs fuel 0 .empty ops).any p = true) :
    ∃ s, RunWhere C ops s ∧ p s = true :=
  RunWhere.evalTested _ envs fuel ops p (fun op hop env s _ => hC op hop env s) h

/-- A run that was evaluated and one more job, with what was tested of the states around it. -/
theorem RunWhere.evalThen {C : JobCond} (envs : Nat → Env) (fuel : Nat) (ops : List JobOp)
    (op : JobOp) (p : CatState → CatState → Bool)
    (hC : ∀ op ∈ ops, ∀ env s, Meets C (fun _ => env) fuel s op)
    (h : (runJobs (fun _ _ => true) envs fuel 0 .empty ops).any (fun s =>
      (apply (fun _ => envs ops.length) fuel s op).toOption.any (fun r => p s r.2)) = true) :
    ∃ s s' out, RunWhere C ops s ∧ apply (fun _ => envs ops.length) fuel s op = .ok (out, s') ∧
      p s s' = true := by
  obtain ⟨s, hrun, h⟩ := RunWhere.eval envs fuel ops _ hC h
  cases hop : apply (fun _ => envs ops.length) fuel s op with
  | error e =>
    rw [hop] at h
    cases h
  | ok r =>
    rw [hop] at h
    exact ⟨s, r.2, r.1, hrun, hop, h⟩

/-- A clock that ticks with every job. -/
def tickingEnv (i : Nat) : Env := ⟨fun _ _ => Int64.ofNat i, fun _ _ => Vector.replicate 16 0⟩

end Edb.Catalog
