import Edb.Catalog.Integrity
import Edb.Catalog.Paged

/-!
# What readers find

The invariants of runs are about the tables of a state. A reader has the pages that store them and
a pinned root, and what it reads there is what the tables hold (`StoresTables.read`): the check of
the database passes, a scan lists rows no two of which have one key, and a foreign key of a row it
lists is the key of a row that a scan of the parent lists.
-/

namespace Edb.Catalog

open Edb.Types Edb.Lib Edb.Txn

section

variable {ops : List JobOp} {s : CatState} {p : Pager BTree.Node} {root : Nat} {t : String}
  {image : TableImage}

/-- A scan of the pages of a state lists the rows of the table. -/
theorem StoresTables.scan (h : StoresTables p root s.snapshot)
    (himage : OrdMap.find t s.tables = some image)
    (hreads : ∀ e ∈ image.data, ∃ row, decodePadded image.def_ e.2 = .ok row) :
    ∃ p' rows, StoresTables p' root s.snapshot ∧
      PinnedSnapshot.scan ⟨some root⟩ t p = .ok rows p' ∧
        image.data.mapM (fun e => decodePadded image.def_ e.2) = .ok rows := by
  have hshows : ∀ es f, f.root = root → TreeJob.Represents es f s.snapshot →
      Shows f (PinnedSnapshot.scan ⟨some root⟩ t) (s.snapshot.scan t) :=
    fun es f hroot hrep => hroot ▸ hrep.scan
  obtain ⟨p', hstores, hrun⟩ := h.read hshows
  obtain ⟨rows, hrows⟩ := Result.mapM_total hreads
  refine ⟨p', rows, hstores, ?_, hrows⟩
  rw [CatSnapshot.scan, TreeJob.image_of_find himage, Result.ok_bind, hrows] at hrun
  exact hrun

/-- **Index consistency.** In every state of a run whose updates are apart, every index of every
table holds exactly the entries of the table's rows, each once, and on any pages that store the
state the check of the database passes. -/
theorem stored_indexes_consistent (h : RunWhere UpdatesApart ops s) :
    (∀ t image, OrdMap.find t s.tables = some image → image.Consistent) ∧
      ∀ p root, StoresTables p root s.snapshot →
        ∃ p', PinnedSnapshot.validate ⟨some root⟩ p = .ok () p' := by
  have hall : ∀ t image, OrdMap.find t s.tables = some image → image.Consistent :=
    fun t image himage => (indexed_iff_consistent (h.sound.inOrder t image himage)
      (h.sound.readable t image himage)).1 (h.indexed t image himage)
  refine ⟨hall, fun p root hstores => ?_⟩
  obtain ⟨p', -, hrun⟩ := hstores.read (fun es f hroot hrep => hroot ▸ hrep.validate)
  refine ⟨p', ?_⟩
  rcases crossCheck_exact h.run with ⟨hok, -⟩ | ⟨t, image, idx, tree, -, himage, hidx, htree, hnot⟩
  · rw [hok] at hrun
    exact hrun
  -- the check names no index that holds what it should
  · obtain ⟨tree', htree', -, hholds⟩ := (hall t image himage).indexes idx hidx
    cases htree.symm.trans htree'
    exact absurd hholds hnot

/-! ## Uniqueness -/

/-- Two rows have different primary keys, and where the second has no NULL different keys in every
unique index and different values in every `unique` column. -/
structure RowsDiffer (d : TableDef) (row row' : List Value) : Prop where
  primaryKey : valuesEqv (pkCells d row) (pkCells d row') = false
  indexes : ∀ idx ∈ d.indexes, idx.unique = true →
    (∀ v ∈ indexCols d idx row', v.isNull = false) →
      valuesEqv (indexCols d idx row) (indexCols d idx row') = false
  columns : ∀ col ∈ d.columns, col.unique = true → ∀ v v', CheckExpr.cell d row col.name = some v →
    CheckExpr.cell d row' col.name = some v' → v'.isNull = false → v.eqv v' = false

/-- Rows that are stored under different keys differ. -/
theorem TableImage.RowsUnique.differ (h : image.RowsUnique) {k k' : Bytes} {row row' : List Value}
    (hrow : image.rows k = some row) (hrow' : image.rows k' = some row') (hne : k ≠ k') :
    RowsDiffer image.def_ row row' := by
  refine ⟨?_, ?_, ?_⟩
  · exact Bool.eq_false_iff.2 (fun heq => hne (h.primaryKey k k' row row' hrow hrow' heq))
  · exact fun idx hidx hu hn => Bool.eq_false_iff.2
      (fun heq => hne (h.indexes idx hidx hu k k' row row' hrow hrow' hn heq))
  · exact fun col hcol hu v v' hv hv' hn => Bool.eq_false_iff.2
      (fun heq => hne (h.columns col hcol hu k k' row row' v v' hrow hrow' hv hv' hn heq))

/-- **Uniqueness.** In every state of a run whose updates are apart and move no key the engine
manages, and whose definitions leave the implicit names alone, the rows of a table are unique, and
on any pages that store the state a scan lists rows that differ from each other. -/
theorem scanned_rows_differ (h : RunWhere KeepsUnique ops s) (t : String) (image : TableImage)
    (himage : OrdMap.find t s.tables = some image) : image.RowsUnique ∧
      ∀ p root, StoresTables p root s.snapshot → ∃ p' rows,
        PinnedSnapshot.scan ⟨some root⟩ t p = .ok rows p' ∧
          rows.Pairwise (RowsDiffer image.def_) := by
  have hunique := h.rowsUnique t image himage
  have hsorted := h.sound.inOrder t image himage
  refine ⟨hunique, fun p root hstores => ?_⟩
  obtain ⟨p', rows, -, hscan, hrows⟩ := hstores.scan himage (h.sound.readable t image himage)
  refine ⟨p', rows, hscan, ?_⟩
  -- the bindings of the data tree ascend, so no two have one key
  refine Result.pairwise_mapM hrows (List.Pairwise.and_mem.1 hsorted) ?_
  rintro e e' row row' hrow hrow' ⟨he, he', hlt⟩
  exact hunique.differ ((TableImage.rows_eq_some hsorted).2 ⟨e.2, he, hrow⟩)
    ((TableImage.rows_eq_some hsorted).2 ⟨e'.2, he', hrow'⟩) (ne_of_lt hlt)

/-! ## References -/

/-- **Referential integrity.** In every state of a run whose updates are apart, move no key the
engine manages and have coherent closures, whose dropped indexes are not the only key a foreign key
refers to, and whose closures are planned where no index misses a row that refers, a foreign key all
of whose columns are set refers to a row of its parent; and on any pages that store the state, each
row a scan lists refers to a row that a scan of the parent lists. -/
theorem scanned_references_met (h : RunWhere KeepsForeignKeys ops s) (t : String)
    (image : TableImage) (himage : OrdMap.find t s.tables = some image) (fk : ForeignKey)
    (hfk : fk ∈ image.def_.foreignKeys) :
    (∀ k row vals, image.rows k = some row → fkValues image.def_ fk row = some vals →
      s.HasKey fk vals) ∧
      ∀ p root, StoresTables p root s.snapshot → ∃ p' p'' rows parent parents,
        PinnedSnapshot.scan ⟨some root⟩ t p = .ok rows p' ∧
        OrdMap.find fk.parent s.tables = some parent ∧
        PinnedSnapshot.scan ⟨some root⟩ fk.parent p' = .ok parents p'' ∧
        ∀ row ∈ rows, ∀ vals, fkValues image.def_ fk row = some vals →
          ∃ row' ∈ parents, optEqv (parentKeyOf parent.def_ fk row') (some vals) = true := by
  obtain ⟨hs, -, -, -, -, hr⟩ := RunWhere.induct referring_kept referring_empty h
  refine ⟨fun k row vals hrow => hr t image himage fk hfk k row hrow vals,
    fun p root hstores => ?_⟩
  obtain ⟨parent, hparent, -⟩ := hs.wellFormed.typed t image himage fk hfk
  obtain ⟨p', rows, hstores', hscan, hrows⟩ := hstores.scan himage (hs.readable t image himage)
  obtain ⟨p'', parents, -, hscan', hparents⟩ :=
    hstores'.scan hparent (hs.readable fk.parent parent hparent)
  refine ⟨p', p'', rows, parent, parents, hscan, hparent, hscan', fun row hrow vals hvals => ?_⟩
  obtain ⟨e, he, hdec⟩ := Result.mem_of_mapM hrows hrow
  have hstored := (TableImage.rows_eq_some (hs.inOrder t image himage)).2 ⟨e.2, he, hdec⟩
  obtain ⟨parent', k', row', hparent', hrow', hkey⟩ :=
    hr t image himage fk hfk e.1 row hstored vals hvals
  cases hparent.symm.trans hparent'
  obtain ⟨bytes, hmem, hdec'⟩ :=
    (TableImage.rows_eq_some (hs.inOrder _ parent hparent)).1 hrow'
  obtain ⟨row'', hlisted, hsame⟩ := Result.exists_of_mapM hparents hmem
  cases hdec'.symm.trans hsame
  exact ⟨row', hlisted, hkey⟩

end

/-! ### Two guests who move to the left -/

/-- Two guests. -/
def twoGuests : List JobOp :=
  [.createTable guestsDef,
    .insert "guests" ([1, 2].map (fun i : Int64 => [("id", .i64 i), ("seat", .i64 i)]))]

/-- Both move one seat to the left: the seat of the first is free when the second takes it. -/
abbrev movesLeft : JobOp := .updateWhere "guests" (shiftSeats (-1))

namespace TreeJob

/-- What the jobs of the two guests write, row by row. -/
def movedLeftRequests : List Request :=
  [.createTable guestsDef,
    .writeRows [⟨"guests", [guestPut 1 1, seatPut 1 1, guestPut 2 2, seatPut 2 2], true, none⟩],
    .writeRows [⟨"guests", [guestPut 1 0, seatDelete 1, seatPut 1 0, guestPut 2 1, seatDelete 2,
      seatPut 2 1], false, none⟩]]

def movedLeftPages : catalogClient.Jobs :=
  Prog.advance (WriterOp.exec catalogClient.name) 60
    (applyJobs catalogOpened.2 [] [] (movedLeftRequests.map catalogClient.apply), catalogOpened.1)

theorem movedLeftPages_returned : movedLeftPages.returned =
    some ({ root := 21, pending := [], orphaned := [] },
      [2, 4, 5, 3, 6, 8, 9, 7, 12, 10, 11, 15, 14, 16, 18, 13, 20],
      [.ok (), .ok (), .ok ()]) := by
  decide +kernel

theorem movedLeftPages_between : catalogClient.Between movedLeftPages.2
    { root := 21, pending := [], orphaned := [] }
    [2, 4, 5, 3, 6, 8, 9, 7, 12, 10, 11, 15, 14, 16, 18, 13, 20] := by
  refine ⟨catalogOpened.1, catalogOpened.1, catalogOpened.2, catalogOpened.2, [],
    movedLeftRequests, [.ok (), .ok (), .ok ()], .inl ⟨0, rfl⟩, .refl, ?_⟩
  have hreached : Prog.Reaches (WriterOp.exec catalogClient.name) ReaderStep _ movedLeftPages :=
    Prog.reaches_advance 60 _
  rwa [Client.Jobs.eq_of_returned movedLeftPages_returned] at hreached

end TreeJob

theorem meets_twoGuests : ∀ op ∈ twoGuests, ∀ env s,
    Meets KeepsUnique (fun _ => env) 9 s op := by
  intro op hop env s
  simp only [twoGuests, List.mem_cons, List.not_mem_nil, or_false] at hop
  rcases hop with rfl | rfl
  · refine ⟨fun _ _ _ _ _ htargets _ => htargets.elim, trivial, fun col _ _ idx hidx => ?_⟩
    cases hidx
  · exact ⟨fun _ _ _ _ _ htargets _ => htargets.elim, trivial, trivial⟩

/-- The guests who moved, on the pages that store them. -/
theorem twoGuests_stored : ∃ s image, RunWhere KeepsUnique (twoGuests ++ [movesLeft]) s ∧
    StoresTables TreeJob.movedLeftPages.2.pager 21 s.snapshot ∧
    OrdMap.find "guests" s.tables = some image ∧ image.data.length = 2 := by
  obtain ⟨s, s', out, hrun, happly, htest⟩ := RunWhere.evalThen tickingEnv 9 twoGuests movesLeft
    (fun s s' => updateApart (tickingEnv 2) 9 s "guests" (shiftSeats (-1)) &&
      (OrdMap.find "guests" s.tables).all (fun i : TableImage => decide i.def_.KeyUnmanaged) &&
      readsBack TreeJob.movedLeftPages.2.pager 21 s'.snapshot &&
      (OrdMap.find "guests" s'.tables).any (fun i => i.data.length = 2))
    meets_twoGuests (by decide +kernel)
  simp only [Bool.and_eq_true] at htest
  obtain ⟨⟨⟨hapart, hkey⟩, hreads⟩, htest⟩ := htest
  obtain ⟨image, himage, hlen⟩ := (Option.any_eq_true _ _).1 htest
  have hmeets : Meets KeepsUnique (fun _ => tickingEnv 2) 9 s movesLeft := by
    refine ⟨updateApart_sound hapart, fun image himage _ => ?_, trivial⟩
    rw [himage, Option.all_some] at hkey
    exact of_decide_eq_true hkey
  exact ⟨s', image, hrun.snoc hmeets happly,
    storesTables_of_readsBack TreeJob.movedLeftPages_between hreads, himage,
    of_decide_eq_true hlen⟩

/-- The check of their database passes. -/
theorem stored_indexes_consistent_twoGuests : ∃ s p',
    RunWhere UpdatesApart (twoGuests ++ [movesLeft]) s ∧
    StoresTables TreeJob.movedLeftPages.2.pager 21 s.snapshot ∧
    PinnedSnapshot.validate ⟨some 21⟩ TreeJob.movedLeftPages.2.pager = .ok () p' := by
  obtain ⟨s, image, hrun, hstores, -⟩ := twoGuests_stored
  have hrun : RunWhere UpdatesApart _ s := hrun.mono (fun _ _ _ _ h => h.1)
  obtain ⟨p', hvalidate⟩ := (stored_indexes_consistent hrun).2 _ _ hstores
  exact ⟨s, p', hrun, hstores, hvalidate⟩

/-- A scan lists two guests who differ. -/
theorem scanned_rows_differ_twoGuests : ∃ s image p' rows,
    RunWhere KeepsUnique (twoGuests ++ [movesLeft]) s ∧
    OrdMap.find "guests" s.tables = some image ∧
    PinnedSnapshot.scan ⟨some 21⟩ "guests" TreeJob.movedLeftPages.2.pager = .ok rows p' ∧
    image.data.length = 2 ∧ rows.Pairwise (RowsDiffer image.def_) := by
  obtain ⟨s, image, hrun, hstores, himage, hlen⟩ := twoGuests_stored
  obtain ⟨p', rows, hscan, hdiffer⟩ :=
    (scanned_rows_differ hrun "guests" image himage).2 _ _ hstores
  exact ⟨s, image, p', rows, hrun, himage, hscan, hlen, hdiffer⟩

/-! ### A coat that follows -/

/-- Two guests, and the coat of the second behind their seat. -/
def coatedGuests : List JobOp :=
  [.createTable guestsDef, .createTable coatsDef,
    .insert "guests" ([1, 2].map (fun i : Int64 => [("id", .i64 i), ("seat", .i64 i)])),
    .insert "coats" [[("id", .i64 2), ("seat", .i64 2)]]]

namespace TreeJob

def hookPut (coat seat : Int64) : TreeEdit :=
  .entry 0 (.put (guestKey seat ++ guestKey coat) (guestKey coat))

def hookDelete (coat seat : Int64) : TreeEdit :=
  .entry 0 (.delete (guestKey seat ++ guestKey coat))

/-- What the jobs of the guests and the coat write, row by row; the coat follows its owner. -/
def coatFollowsRequests : List Request :=
  [.createTable guestsDef, .createTable coatsDef,
    .writeRows [⟨"guests", [guestPut 1 1, seatPut 1 1, guestPut 2 2, seatPut 2 2], true, none⟩],
    .writeRows [⟨"coats", [guestPut 2 2, hookPut 2 2], true, none⟩],
    .writeRows [⟨"guests", [guestPut 1 0, seatDelete 1, seatPut 1 0, guestPut 2 1, seatDelete 2,
        seatPut 2 1], false, none⟩,
      ⟨"coats", [guestPut 2 1, hookDelete 2 2, hookPut 2 1], false, none⟩]]

def coatFollowsPages : catalogClient.Jobs :=
  Prog.advance (WriterOp.exec catalogClient.name) 120
    (applyJobs catalogOpened.2 [] [] (coatFollowsRequests.map catalogClient.apply),
      catalogOpened.1)

theorem coatFollowsPages_returned : coatFollowsPages.returned =
    some ({ root := 35, pending := [], orphaned := [] },
      [2, 4, 5, 7, 9, 10, 3, 6, 13, 14, 12, 17, 8, 11, 18, 21, 15, 16, 24, 23, 25, 27, 22, 29, 19,
        20, 32, 30, 34], [.ok (), .ok (), .ok (), .ok (), .ok ()]) := by
  decide +kernel

theorem coatFollowsPages_between : catalogClient.Between coatFollowsPages.2
    { root := 35, pending := [], orphaned := [] }
    [2, 4, 5, 7, 9, 10, 3, 6, 13, 14, 12, 17, 8, 11, 18, 21, 15, 16, 24, 23, 25, 27, 22, 29, 19, 20,
      32, 30, 34] := by
  refine ⟨catalogOpened.1, catalogOpened.1, catalogOpened.2, catalogOpened.2, [],
    coatFollowsRequests, [.ok (), .ok (), .ok (), .ok (), .ok ()], .inl ⟨0, rfl⟩, .refl, ?_⟩
  have hreached : Prog.Reaches (WriterOp.exec catalogClient.name) ReaderStep _ coatFollowsPages :=
    Prog.reaches_advance 120 _
  rwa [Client.Jobs.eq_of_returned coatFollowsPages_returned] at hreached

end TreeJob

theorem meets_coatedGuests : ∀ op ∈ coatedGuests, ∀ env s,
    Meets KeepsForeignKeys (fun _ => env) 9 s op := by
  intro op hop env s
  simp only [coatedGuests, List.mem_cons, List.not_mem_nil, or_false] at hop
  rcases hop with rfl | rfl | rfl | rfl <;>
    exact ⟨fun _ _ _ _ _ htargets _ => htargets.elim, trivial, fun _ _ hdrop => (by cases hdrop),
      fun _ _ _ _ _ htargets _ => htargets.elim, looksSee_of_still (fun _ _ _ => id)
        (fun _ _ _ => id)⟩

/-- The coat is listed behind the new seat of its owner, who is listed on it. -/
theorem scanned_references_met_coats : ∃ s image fk p' p'' rows parent parents,
    RunWhere KeepsForeignKeys (coatedGuests ++ [movesLeft]) s ∧
    OrdMap.find "coats" s.tables = some image ∧ fk ∈ image.def_.foreignKeys ∧
    PinnedSnapshot.scan ⟨some 35⟩ "coats" TreeJob.coatFollowsPages.2.pager = .ok rows p' ∧
    rows = [[.i64 2, .i64 1]] ∧ OrdMap.find fk.parent s.tables = some parent ∧
    PinnedSnapshot.scan ⟨some 35⟩ fk.parent p' = .ok parents p'' ∧
    ∃ row ∈ parents, optEqv (parentKeyOf parent.def_ fk row) (some [.i64 1]) = true := by
  obtain ⟨s, s', out, hrun, happly, htest⟩ := RunWhere.evalThen tickingEnv 9 coatedGuests movesLeft
    (fun s s' => updateApart (tickingEnv 4) 9 s "guests" (shiftSeats (-1)) &&
      updateCoherent (tickingEnv 4) 9 s "guests" (shiftSeats (-1)) && looksSee s &&
      (OrdMap.find "guests" s.tables).all (fun i : TableImage => decide i.def_.KeyUnmanaged) &&
      readsBack TreeJob.coatFollowsPages.2.pager 35 s'.snapshot &&
      (OrdMap.find "coats" s'.tables).any (fun i : TableImage =>
        i.def_.foreignKeys.any (fun fk => fkValues i.def_ fk [.i64 2, .i64 1] = some [.i64 1]) &&
        i.data.mapM (fun e => decodePadded i.def_ e.2) = .ok [[.i64 2, .i64 1]]))
    meets_coatedGuests (by decide +kernel)
  simp only [Bool.and_eq_true] at htest
  obtain ⟨⟨⟨⟨⟨hapart, hcoherent⟩, hsee⟩, hkey⟩, hreads⟩, htest⟩ := htest
  obtain ⟨image, himage, htest⟩ := (Option.any_eq_true _ _).1 htest
  rw [Bool.and_eq_true, decide_eq_true_eq] at htest
  obtain ⟨fk, hfk, hvals⟩ := List.any_eq_true.1 htest.1
  have hmeets : Meets KeepsForeignKeys (fun _ => tickingEnv 4) 9 s movesLeft := by
    refine ⟨updateApart_sound hapart, fun image himage _ => ?_, fun _ _ hdrop => (by cases hdrop),
      updateCoherent_sound hrun.sound.wellFormed hcoherent, fun _ _ => looksSee_sound hsee⟩
    rw [himage, Option.all_some] at hkey
    exact of_decide_eq_true hkey
  have hrun' := hrun.snoc hmeets happly
  have hstores := storesTables_of_readsBack TreeJob.coatFollowsPages_between hreads
  obtain ⟨p', p'', rows, parent, parents, hscan, hparent, hscan', hmet⟩ :=
    (scanned_references_met hrun' "coats" image himage fk hfk).2 _ _ hstores
  obtain ⟨p₁, rows₁, -, hscan₁, hrows⟩ :=
    hstores.scan himage (hrun'.sound.readable "coats" image himage)
  cases hscan.symm.trans hscan₁
  cases hrows.symm.trans htest.2
  exact ⟨s', image, fk, p', p'', _, parent, parents, hrun', himage, hfk, hscan, rfl, hparent,
    hscan', hmet _ List.mem_cons_self _ (of_decide_eq_true hvals)⟩

/-! ### A name that is taken -/

/-- Users with a unique e-mail, and an index on their nicknames under the name that the index of
the e-mails would have. -/
def takenName : List JobOp :=
  [.createTable ⟨"users", [ColumnDef.new "id" .i64,
      { ColumnDef.new "email" .text with unique := true }, ColumnDef.new "nick" .text], ["id"], [],
      [⟨implicitIndexName "users" "email", ["nick"], false⟩], []⟩,
    .insert "users" [[("id", .i64 1), ("email", .text "a"), ("nick", .text "x")],
      [("id", .i64 2), ("email", .text "a"), ("nick", .text "y")]]]

/-- Two rows have one value in a unique column. -/
def sharesValue (image : TableImage) : Bool :=
  image.def_.columns.any (fun col => col.unique &&
    image.data.any (fun e => image.data.any (fun e' =>
      decide (e.1 ≠ e'.1) && (image.rows e.1).any (fun row => (image.rows e'.1).any (fun row' =>
        (CheckExpr.cell image.def_ row col.name).any (fun v =>
          (CheckExpr.cell image.def_ row' col.name).any (fun v' => !v'.isNull && v.eqv v')))))))

theorem not_rowsUnique_of_shares {image : TableImage} (h : sharesValue image = true) :
    ¬ image.RowsUnique := by
  intro hunique
  obtain ⟨col, hcol, h⟩ := List.any_eq_true.1 h
  rw [Bool.and_eq_true] at h
  obtain ⟨hu, h⟩ := h
  obtain ⟨e, -, h⟩ := List.any_eq_true.1 h
  obtain ⟨e', -, h⟩ := List.any_eq_true.1 h
  rw [Bool.and_eq_true, decide_eq_true_eq] at h
  obtain ⟨hne, h⟩ := h
  obtain ⟨row, hrow, h⟩ := (Option.any_eq_true _ _).1 h
  obtain ⟨row', hrow', h⟩ := (Option.any_eq_true _ _).1 h
  obtain ⟨v, hv, h⟩ := (Option.any_eq_true _ _).1 h
  obtain ⟨v', hv', h⟩ := (Option.any_eq_true _ _).1 h
  rw [Bool.and_eq_true, Bool.not_eq_true'] at h
  exact hne (hunique.columns col hcol hu e.1 e'.1 row row' v v' hrow hrow' hv hv' h.1 h.2)

/-- Two users have one e-mail. -/
theorem taken_name_lets_values_repeat : ∃ s image, Run takenName s ∧
    OrdMap.find "users" s.tables = some image ∧ ¬ image.RowsUnique := by
  obtain ⟨s, hrun, htest⟩ := RunWhere.eval (C := Free) tickingEnv 9 takenName
    (fun s => (OrdMap.find "users" s.tables).any sharesValue)
    (fun op _ env s => meets_free _ _ _ _) (by decide +kernel)
  obtain ⟨image, himage, hshares⟩ := (Option.any_eq_true _ _).1 htest
  exact ⟨s, image, hrun.run, himage, not_rowsUnique_of_shares hshares⟩

/-! ### A place with two parents -/

/-- Cars at a place, which is a spot and a zone at once. Cars follow their spots. -/
def carsDef : TableDef :=
  ⟨"cars", [ColumnDef.new "id" .i64, ColumnDef.new "place" .i64], ["id"], [], [],
    [⟨"of_spot", ["place"], "spots", ["code"], .restrict, .cascade⟩,
      ⟨"of_zone", ["place"], "zones", ["code"], .restrict, .restrict⟩]⟩

/-- A spot, a zone and a car at place 1; the spot becomes spot 2. -/
def spotRenumbered : List JobOp :=
  ["spots", "zones"].map (fun name => .createTable ⟨name, [ColumnDef.new "id" .i64,
      { ColumnDef.new "code" .i64 with unique := true }], ["id"], [], [], []⟩) ++
    .createTable carsDef ::
      ["spots", "zones"].map (fun name => .insert name [[("id", .i64 1), ("code", .i64 1)]]) ++
    [.insert "cars" [[("id", .i64 1), ("place", .i64 1)]],
      .update "spots" [.i64 1] [("code", .i64 2)]]

/-- A row refers to no row of the parent. -/
def someDangles (s : CatState) : Bool :=
  s.tables.any (fun e => e.2.def_.foreignKeys.any (fun fk => e.2.data.any (fun r =>
    (e.2.rows r.1).any (fun row => (fkValues e.2.def_ fk row).any (fun vals =>
      (OrdMap.find fk.parent s.tables).all (fun parent => parent.data.all (fun r' =>
        (parent.rows r'.1).all (fun row' =>
          !optEqv (parentKeyOf parent.def_ fk row') (some vals)))))))))

theorem not_referential_of_dangles {s : CatState} (hs : s.Sound) (h : someDangles s = true) :
    ¬ s.Referential := by
  intro hr
  obtain ⟨⟨t, image⟩, he, h⟩ := List.any_eq_true.1 h
  obtain ⟨fk, hfk, h⟩ := List.any_eq_true.1 h
  obtain ⟨r, -, h⟩ := List.any_eq_true.1 h
  obtain ⟨row, hrow, h⟩ := (Option.any_eq_true _ _).1 h
  obtain ⟨vals, hvals, h⟩ := (Option.any_eq_true _ _).1 h
  have himage := (OrdMap.find_eq_some_iff hs.wellFormed.sorted).2 he
  obtain ⟨parent, k', row', hparent, hrow', hkey⟩ :=
    hr t image himage fk hfk r.1 row hrow vals hvals
  obtain ⟨bytes, hmem, -⟩ := (TableImage.rows_eq_some (hs.inOrder _ parent hparent)).1 hrow'
  rw [hparent, Option.all_some] at h
  have hnot := List.all_eq_true.1 h (k', bytes) hmem
  rw [show parent.rows (k', bytes).1 = some row' from hrow', Option.all_some, hkey] at hnot
  cases hnot

/-- The car follows its spot to a place that is no zone. -/
theorem renumbered_car_dangles : ∃ s, Run spotRenumbered s ∧ ¬ s.Referential := by
  obtain ⟨s, hrun, htest⟩ := RunWhere.eval (C := Free) tickingEnv 9 spotRenumbered someDangles
    (fun op _ env s => meets_free _ _ _ _) (by decide +kernel)
  exact ⟨s, hrun.run, not_referential_of_dangles hrun.run.sound htest⟩

end Edb.Catalog
