import Edb.Catalog.IndexRun

/-!
# The cross-check of indexes

`crossCheck` compares every index of a snapshot, entry for entry, with what the base rows contribute
to it. In the states runs lead to it fails in one way only, and then the index it names is out of
step with its table (`crossCheck_exact`).
-/

namespace Edb.Catalog

open Edb.Types Edb.Lib

namespace CatSnapshot

/-- All table names, ascending. -/
def tableNames (snap : CatSnapshot) : List String := snap.tables.map (fun e => e.2.def_.name)

/-- The entries an index should have, from the base rows in order. -/
def expectedEntries (def_ : TableDef) (idx : IndexDef) : TreeContents → CatResult TreeContents
  | [] => .ok []
  | (pkKey, bytes) :: base => do
    let row ← decodePadded def_ bytes
    let e ← ofType (entry (indexCols def_ idx row) pkKey idx.unique)
    let rest ← expectedEntries def_ idx base
    pure (e.toList.map (fun e => (e.key, e.value)) ++ rest)

/-- Compare one index with its table. -/
def crossCheckIndex (table : String) (image : TableImage) (idx : IndexDef) : CatResult Unit := do
  let tree ← okOr (.corrupt .missingEntry) (image.indexes.lookup idx.name)
  let expected ← expectedEntries image.def_ idx image.data
  require (expected.insertionSort (fun a b => toLex a ≤ toLex b) = tree)
    (.indexOutOfSync table idx.name)

/-- Every index matches its base table entry for entry: the check of a database whose trees are
sound. -/
def crossCheck (snap : CatSnapshot) : CatResult Unit :=
  snap.tableNames.forM (fun table => do
    let image ← snap.image table
    image.def_.indexes.forM (crossCheckIndex table image))

end CatSnapshot

section Index

variable {image : TableImage} {idx : IndexDef} {tree es : TreeContents}

theorem expectedEntries_eq_ok {d : TableDef} {data : TreeContents} :
    CatSnapshot.expectedEntries d idx data = .ok es ↔ rowEntries d idx data = .ok es := by
  induction data generalizing es with
  | nil => simp [CatSnapshot.expectedEntries, rowEntries]
  | cons a data ih =>
    rw [CatSnapshot.expectedEntries, rowEntries, Result.bind_eq_ok, Result.bind_eq_ok]
    refine exists_congr (fun row => ?_)
    rw [rej_eq_ok, Result.bind_eq_ok, Result.bind_eq_ok]
    refine and_congr_right (fun _ => exists_congr (fun e => ?_))
    rw [entryFor, rej_eq_ok, Result.bind_eq_ok, Result.bind_eq_ok]
    refine and_congr_right (fun _ => exists_congr (fun rest => ?_))
    rw [ih]
    exact and_congr_right (fun _ => by constructor <;> intro h <;> cases h <;> rfl)

/-- In a sorted tree the comparison of the sorted entries is one of the entries as a whole. -/
theorem sorted_entries_iff (h : OrdMap.Sorted tree) :
    es.insertionSort (fun a b => toLex a ≤ toLex b) = tree ↔ tree.Perm es := by
  have htree : tree.Pairwise (fun a b => toLex a ≤ toLex b) :=
    h.imp (fun hlt => le_of_lt (Prod.Lex.toLex_lt_toLex.2 (.inl hlt)))
  constructor
  · intro heq
    rw [← heq]
    exact List.perm_insertionSort _ es
  · intro hperm
    refine List.Perm.eq_of_pairwise (fun a b _ _ hab hba => ?_)
      (List.pairwise_insertionSort _ es) htree ((List.perm_insertionSort _ es).trans hperm.symm)
    exact toLex.injective (le_antisymm hab hba)

/-- The check of one index of a table whose rows have their entries. -/
theorem crossCheckIndex_exact (table : String) (hs : OrdMap.Sorted image.data)
    (hr : ∀ e ∈ image.data, ∃ row, decodePadded image.def_ e.2 = .ok row) (he : image.Entered)
    (hidx : idx ∈ image.def_.indexes) : ∃ tree, OrdMap.find idx.name image.indexes = some tree ∧
      OrdMap.Sorted tree ∧
      ((CatSnapshot.crossCheckIndex table image idx = .ok () ∧ image.Holds idx tree) ∨
        (CatSnapshot.crossCheckIndex table image idx = .error (.indexOutOfSync table idx.name) ∧
          ¬ image.Holds idx tree)) := by
  obtain ⟨tree, htree, hsorted⟩ := he.trees idx hidx
  refine ⟨tree, htree, hsorted, ?_⟩
  -- every row reads and has an entry, so the expected entries are computed
  have hrows : ∀ e ∈ image.data, ∃ row e', decodePadded image.def_ e.2 = .ok row ∧
      entryFor image.def_ idx row e.1 = .ok e' := by
    intro e hmem
    obtain ⟨row, hrow⟩ := hr e hmem
    obtain ⟨e', he'⟩ := he.entries idx hidx e.1 row
      ((TableImage.rows_eq_some hs).2 ⟨e.2, hmem, hrow⟩)
    exact ⟨row, e', hrow, he'⟩
  obtain ⟨es, hes⟩ := rowEntries_exists hrows
  have hholds : image.Holds idx tree ↔ tree.Perm es := by
    constructor
    · rintro ⟨es', hes', hperm⟩
      cases hes.symm.trans hes'
      exact hperm
    · exact fun hperm => ⟨es, hes, hperm⟩
  -- the check compares the tree with the expected entries in order
  have hstep : CatSnapshot.crossCheckIndex table image idx =
      require (es.insertionSort (fun a b => toLex a ≤ toLex b) = tree)
        (.indexOutOfSync table idx.name) := by
    rw [CatSnapshot.crossCheckIndex, OrdMap.lookup_eq_find, htree, expectedEntries_eq_ok.2 hes]
    rfl
  rw [hstep, hholds, require]
  by_cases hperm : tree.Perm es
  · refine .inl ⟨?_, hperm⟩
    rw [decide_eq_true ((sorted_entries_iff hsorted).2 hperm)]
    rfl
  · refine .inr ⟨?_, hperm⟩
    rw [decide_eq_false (fun heq => hperm ((sorted_entries_iff hsorted).1 heq))]
    rfl

end Index

section Runs

variable {s : CatState} {ops : List JobOp}

/-- An index that is in step is one the check passes. -/
theorem consistent_iff_holds {image : TableImage} (hs : OrdMap.Sorted image.data)
    (hr : ∀ e ∈ image.data, ∃ row, decodePadded image.def_ e.2 = .ok row) (he : image.Entered) :
    image.Consistent ↔ ∀ idx ∈ image.def_.indexes, ∀ tree,
      OrdMap.find idx.name image.indexes = some tree → image.Holds idx tree := by
  constructor
  · intro h idx hidx tree htree
    obtain ⟨tree', htree', -, hholds⟩ := h.indexes idx hidx
    cases htree.symm.trans htree'
    exact hholds
  · intro h
    refine ⟨hs, hr, fun idx hidx => ?_⟩
    obtain ⟨tree, htree, hsorted⟩ := he.trees idx hidx
    exact ⟨tree, htree, hsorted, h idx hidx tree htree⟩

/-- The names a snapshot lists are those of its tables. -/
theorem mem_tableNames (hs : s.WellFormed) {t : String} :
    t ∈ s.snapshot.tableNames ↔ ∃ image, OrdMap.find t s.tables = some image := by
  rw [CatSnapshot.tableNames, List.mem_map]
  constructor
  · rintro ⟨e, he, rfl⟩
    have hfind := (OrdMap.find_eq_some_iff hs.sorted).2 he
    rw [(hs.tables e.1 e.2 hfind).named]
    exact ⟨e.2, hfind⟩
  · rintro ⟨image, himage⟩
    exact ⟨(t, image), OrdMap.mem_of_find himage, (hs.tables t image himage).named⟩

theorem snapshot_image {t : String} {image : TableImage}
    (h : OrdMap.find t s.tables = some image) : s.snapshot.image t = .ok image := by
  rw [CatSnapshot.image, okOr_eq_ok]
  exact (OrdMap.lookup_eq_find t s.tables).trans h

/-- **The cross-check is exact.** In every state of every run it passes, and then every index of
every table holds exactly the entries of its rows, or it names an index that does not. -/
theorem crossCheck_exact (h : Run ops s) :
    (s.snapshot.crossCheck = .ok () ∧
      ∀ t image, OrdMap.find t s.tables = some image → image.Consistent) ∨
    ∃ t image idx tree, s.snapshot.crossCheck = .error (.indexOutOfSync t idx.name) ∧
      OrdMap.find t s.tables = some image ∧ idx ∈ image.def_.indexes ∧
      OrdMap.find idx.name image.indexes = some tree ∧ ¬ image.Holds idx tree := by
  have hsound := h.sound
  have hindex : ∀ t image, OrdMap.find t s.tables = some image → ∀ idx ∈ image.def_.indexes, _ :=
    fun t image himage idx hidx => crossCheckIndex_exact t (hsound.inOrder t image himage)
      (hsound.readable t image himage) (h.entered t image himage) hidx
  cases hv : s.snapshot.crossCheck with
  | ok u =>
    refine .inl ⟨rfl, fun t image himage => ?_⟩
    rw [consistent_iff_holds (hsound.inOrder t image himage) (hsound.readable t image himage)
      (h.entered t image himage)]
    intro idx hidx tree htree
    have htable := Result.forM_eq_ok.1 hv t ((mem_tableNames hsound.wellFormed).2 ⟨image, himage⟩)
    rw [snapshot_image himage, Result.ok_bind] at htable
    obtain ⟨tree', htree', -, ⟨-, hholds⟩ | ⟨herror, -⟩⟩ := hindex t image himage idx hidx
    · cases htree.symm.trans htree'
      exact hholds
    · rw [Result.forM_eq_ok.1 htable idx hidx] at herror
      cases herror
  | error e =>
    obtain ⟨before, t, after, heq, -, ht⟩ := Result.forM_error hv
    obtain ⟨image, himage⟩ := (mem_tableNames hsound.wellFormed).1
      (show t ∈ s.snapshot.tableNames by rw [heq]; simp)
    rw [snapshot_image himage, Result.ok_bind] at ht
    obtain ⟨before', idx, after', heq', -, hidx⟩ := Result.forM_error ht
    have hmem : idx ∈ image.def_.indexes := by rw [heq']; simp
    obtain ⟨tree, htree, -, ⟨hok, -⟩ | ⟨herror, hnot⟩⟩ := hindex t image himage idx hmem
    · cases hidx.symm.trans hok
    · cases hidx.symm.trans herror
      exact .inr ⟨t, image, idx, tree, rfl, himage, hmem, htree, hnot⟩

end Runs

end Edb.Catalog
