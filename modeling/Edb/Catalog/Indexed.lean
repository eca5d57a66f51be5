import Edb.Catalog.Doomed
import Edb.Catalog.RowWrites

/-!
# What keeps indexes in step with rows

A table is indexed when every index tree is the inverse of the keys its rows have there; for rows
that read this is the consistency of its indexes (`indexed_iff_consistent`). Row writes keep a table
indexed as long as their moves are orderly, and most of that the jobs check: a key that is taken
was free or is left by a row of the statement, and no two changed rows take one key.
-/

namespace Edb.Catalog

open Edb.Types Edb.Lib

/-! ## Indexed tables -/

/-- The keys the rows of a table have in an index. -/
def TableImage.keys (image : TableImage) (idx : IndexDef) (k : Bytes) : Option Bytes :=
  indexKey image.def_ idx k (image.rows k)

/-- Every row has its entries, and the index trees hold these. -/
structure TableImage.Indexed (image : TableImage) : Prop where
  entries : ∀ idx ∈ image.def_.indexes, ∀ k row, image.rows k = some row →
    ∃ e, entryFor image.def_ idx row k = .ok e
  trees : ∀ idx ∈ image.def_.indexes, ∃ tree, OrdMap.find idx.name image.indexes = some tree ∧
    Inverse.Inverts tree (image.keys idx)

/-- Every row has its entries, and every index has a tree in order: what all jobs keep. -/
structure TableImage.Entered (image : TableImage) : Prop where
  entries : ∀ idx ∈ image.def_.indexes, ∀ k row, image.rows k = some row →
    ∃ e, entryFor image.def_ idx row k = .ok e
  trees : ∀ idx ∈ image.def_.indexes, ∃ tree, OrdMap.find idx.name image.indexes = some tree ∧
    OrdMap.Sorted tree

theorem TableImage.Indexed.entered {image : TableImage} (h : image.Indexed) : image.Entered := by
  refine ⟨h.entries, fun idx hidx => ?_⟩
  obtain ⟨tree, htree, hi⟩ := h.trees idx hidx
  exact ⟨tree, htree, hi.sorted⟩

section Keys

variable {d : TableDef} {idx : IndexDef} {image : TableImage}

/-- The key of a row in an index is that of its entry. -/
theorem indexKey_eq_some {pkKey k : Bytes} {row : Option (List Value)} :
    indexKey d idx pkKey row = some k ↔
      ∃ r, row = some r ∧ entryFor d idx r pkKey = .ok (some ⟨k, pkKey⟩) := by
  constructor
  · intro h
    obtain ⟨r, hr, h⟩ := Option.bind_eq_some_iff.1 h
    obtain ⟨e, he, hk⟩ := Option.map_eq_some_iff.1 h
    obtain ⟨e?, he?, heq⟩ := Option.bind_eq_some_iff.1 he
    have heq : e? = some e := heq
    subst heq
    have hentry := Result.toOption_eq_some he?
    obtain ⟨key, value⟩ := e
    cases entryFor_value hentry
    cases hk
    exact ⟨r, hr, hentry⟩
  · rintro ⟨r, rfl, h⟩
    rw [indexKey_some h]
    rfl

/-- The rows of a table are those its data tree stores. -/
theorem TableImage.rows_eq_some (hs : OrdMap.Sorted image.data) {k : Bytes} {row : List Value} :
    image.rows k = some row ↔
      ∃ bytes, (k, bytes) ∈ image.data ∧ decodePadded image.def_ bytes = .ok row := by
  constructor
  · intro h
    obtain ⟨bytes, hfind, h⟩ := Option.bind_eq_some_iff.1 h
    exact ⟨bytes, OrdMap.mem_of_find hfind, Result.toOption_eq_some h⟩
  · rintro ⟨bytes, hmem, h⟩
    rw [TableImage.rows, (OrdMap.find_eq_some_iff hs).2 hmem, Option.bind_some, h]
    rfl

/-- The keys in an index are those of the rows it has an entry for. -/
theorem TableImage.keys_eq_some (hs : OrdMap.Sorted image.data) {k v : Bytes} :
    image.keys idx v = some k ↔ ∃ bytes row, (v, bytes) ∈ image.data ∧
      decodePadded image.def_ bytes = .ok row ∧
        entryFor image.def_ idx row v = .ok (some ⟨k, v⟩) := by
  rw [TableImage.keys, indexKey_eq_some]
  constructor
  · rintro ⟨row, hrow, hentry⟩
    obtain ⟨bytes, hmem, hdec⟩ := (TableImage.rows_eq_some hs).1 hrow
    exact ⟨bytes, row, hmem, hdec, hentry⟩
  · rintro ⟨bytes, row, hmem, hdec, hentry⟩
    exact ⟨row, (TableImage.rows_eq_some hs).2 ⟨bytes, hmem, hdec⟩, hentry⟩

/-- Entries of a non-unique index have one key only if they are of one row. -/
theorem indexKey_inj (hu : idx.unique = false) {pkKey pkKey' k : Bytes}
    {row row' : Option (List Value)} (h : indexKey d idx pkKey row = some k)
    (h' : indexKey d idx pkKey' row' = some k) : pkKey = pkKey' := by
  obtain ⟨r, -, h⟩ := indexKey_eq_some.1 h
  obtain ⟨r', -, h'⟩ := indexKey_eq_some.1 h'
  rw [entryFor, rej_eq_ok, ofType_eq_ok, hu] at h h'
  obtain ⟨hcols, hkey⟩ := entry_eq_some h
  obtain ⟨hcols', hkey'⟩ := entry_eq_some h'
  have hsame := hkey.symm.trans hkey'
  exact ((component_embeds.flatMap_append_inj (fun _ _ => cmpBytes_eq) hcols hcols'
    (by simp [indexCols])).1 hsame).2

/-- The entries of rows that have them are computed. -/
theorem rowEntries_exists {data : TreeContents}
    (h : ∀ e ∈ data, ∃ row e', decodePadded d e.2 = .ok row ∧ entryFor d idx row e.1 = .ok e') :
    ∃ es, rowEntries d idx data = .ok es := by
  induction data with
  | nil => exact ⟨[], rfl⟩
  | cons e data ih =>
    obtain ⟨es, hes⟩ := ih (fun e he => h e (List.mem_cons_of_mem _ he))
    obtain ⟨row, e', hrow, he'⟩ := h e (by simp)
    exact ⟨_, Result.bind_eq_ok.2 ⟨row, rej_eq_ok.2 hrow,
      Result.bind_eq_ok.2 ⟨e', he', Result.bind_eq_ok.2 ⟨es, hes, rfl⟩⟩⟩⟩

/-- Each entry is of a row of its own. -/
theorem rowEntries_sublist {data es : TreeContents} (h : rowEntries d idx data = .ok es) :
    (es.map Prod.snd).Sublist (data.map Prod.fst) := by
  induction data generalizing es with
  | nil =>
    cases h
    exact .slnil
  | cons a data ih =>
    obtain ⟨row, -, h⟩ := Result.bind_eq_ok.1 h
    obtain ⟨e, he, h⟩ := Result.bind_eq_ok.1 h
    obtain ⟨es', hes, h⟩ := Result.bind_eq_ok.1 h
    cases h
    cases e with
    | none => exact (ih hes).cons _
    | some e =>
      show (e.value :: es'.map Prod.snd).Sublist (a.1 :: data.map Prod.fst)
      rw [entryFor_value he]
      exact (ih hes).cons_cons _

theorem nodup_of_keys {α β : Type} [LinearOrder α] {l : List (α × β)} (h : OrdMap.Sorted l) :
    l.Nodup :=
  List.Pairwise.imp (fun hlt heq => absurd (heq ▸ hlt) (lt_irrefl _)) h

end Keys

/-- **Consistent indexes are inverses.** -/
theorem indexed_iff_consistent {image : TableImage} (hs : OrdMap.Sorted image.data)
    (hr : ∀ e ∈ image.data, ∃ row, decodePadded image.def_ e.2 = .ok row) :
    image.Indexed ↔ image.Consistent := by
  -- a tree has the entries of the rows exactly when it inverts their keys
  have hinverts : ∀ {idx es tree}, rowEntries image.def_ idx image.data = .ok es →
      OrdMap.Sorted tree → ((∀ e, e ∈ tree ↔ e ∈ es) ↔ Inverse.Inverts tree (image.keys idx)) := by
    intro idx es tree hes htree
    have hmem : ∀ k v, image.keys idx v = some k ↔ (k, v) ∈ es := by
      intro k v
      rw [TableImage.keys_eq_some hs, mem_rowEntries hes]
    constructor
    · intro h
      exact ⟨htree, fun k v => by rw [OrdMap.find_eq_some_iff htree, h, hmem]⟩
    · intro h e
      rw [← OrdMap.find_eq_some_iff htree, h.find_iff, hmem]
  constructor
  · intro h
    refine ⟨hs, hr, fun idx hidx => ?_⟩
    obtain ⟨tree, htree, hi⟩ := h.trees idx hidx
    have hrows : ∀ e ∈ image.data, ∃ row e', decodePadded image.def_ e.2 = .ok row ∧
        entryFor image.def_ idx row e.1 = .ok e' := by
      intro e he
      obtain ⟨row, hrow⟩ := hr e he
      obtain ⟨e', he'⟩ := h.entries idx hidx e.1 row
        ((TableImage.rows_eq_some hs).2 ⟨e.2, he, hrow⟩)
      exact ⟨row, e', hrow, he'⟩
    obtain ⟨es, hes⟩ := rowEntries_exists hrows
    -- no two rows have one primary key, so equal members make a permutation
    have hnodup : es.Nodup := List.Nodup.of_map Prod.snd
      ((hs.keys.imp (fun hlt => ne_of_lt hlt)).sublist (rowEntries_sublist hes))
    exact ⟨tree, htree, hi.sorted, es, hes,
      (List.perm_ext_iff_of_nodup (nodup_of_keys hi.sorted) hnodup).2
        ((hinverts hes hi.sorted).2 hi)⟩
  · intro h
    refine ⟨fun idx hidx k row hrow => ?_, fun idx hidx => ?_⟩
    · obtain ⟨tree, -, -, es, hes, -⟩ := h.indexes idx hidx
      obtain ⟨bytes, hmem, hdec⟩ := (TableImage.rows_eq_some hs).1 hrow
      exact rowEntries_total hes hmem hdec
    · obtain ⟨tree, htree, hsorted, es, hes, hperm⟩ := h.indexes idx hidx
      exact ⟨tree, htree, (hinverts hes hsorted).1 (fun e => hperm.mem_iff)⟩

/-! ## Row writes -/

section Writes

variable {a b : TableImage} {ws : List RowWrite}

/-- The keys after some writes are those the moves lead to. -/
theorem keys_of_writes (d : TableDef) (idx : IndexDef) (ws : List RowWrite)
    (rows : Bytes → Option (List Value)) :
    (fun k => indexKey d idx k (writeRows ws rows k)) =
      Inverse.moveAll (ws.map (RowWrite.move d idx)) (fun k => indexKey d idx k (rows k)) := by
  induction ws generalizing rows with
  | nil => rfl
  | cons w ws ih =>
    rw [writeRows_cons, ih]
    refine congrArg (Inverse.moveAll (ws.map (RowWrite.move d idx))) (funext fun k => ?_)
    show _ = Function.update (fun k => indexKey d idx k (rows k)) w.pkKey
      (indexKey d idx w.pkKey w.new) k
    by_cases hk : k = w.pkKey
    · rw [hk, Function.update_self, Function.update_self]
    · rw [Function.update_of_ne hk, Function.update_of_ne hk]

/-- A row after some writes was there before or is one that was written. -/
theorem rows_of_writes {rows : Bytes → Option (List Value)} {k : Bytes} {row : List Value}
    (h : writeRows ws rows k = some row) :
    rows k = some row ∨ ∃ w ∈ ws, w.pkKey = k ∧ w.new = some row := by
  induction ws generalizing rows with
  | nil => exact .inl h
  | cons w ws ih =>
    rcases ih h with h | ⟨w', hw', h⟩
    · change Function.update rows w.pkKey w.new k = some row at h
      by_cases hk : k = w.pkKey
      · rw [hk, Function.update_self] at h
        exact .inr ⟨w, by simp, hk.symm, h⟩
      · rw [Function.update_of_ne hk] at h
        exact .inl h
    · exact .inr ⟨w', List.mem_cons_of_mem _ hw', h⟩

theorem writeRows_of_ne {rows : Bytes → Option (List Value)} {k : Bytes}
    (h : ∀ w ∈ ws, w.pkKey ≠ k) : writeRows ws rows k = rows k := by
  induction ws generalizing rows with
  | nil => rfl
  | cons w ws ih =>
    obtain ⟨hfirst, hrest⟩ := List.forall_mem_cons.1 h
    rw [writeRows_cons, ih hrest, Function.update_of_ne hfirst.symm]

/-- A row that is written once is as it was written. -/
theorem writeRows_of_mem {rows : Bytes → Option (List Value)} {w : RowWrite}
    (h : (ws.map RowWrite.pkKey).Nodup) (hw : w ∈ ws) : writeRows ws rows w.pkKey = w.new := by
  induction ws generalizing rows with
  | nil => cases hw
  | cons w' ws ih =>
    obtain ⟨hfresh, h⟩ := List.nodup_cons.1 h
    rw [writeRows_cons]
    rcases List.mem_cons.1 hw with rfl | hw
    · rw [writeRows_of_ne, Function.update_self]
      rintro w' hw' heq
      exact hfresh (heq ▸ List.mem_map_of_mem hw')
    · exact ih h hw

/-- Writes make entries of the rows they write. -/
theorem TableImage.Entered.wrote (h : a.Entered) (hw : a.Wrote ws b) : b.Entered := by
  refine ⟨fun idx hidx k row hrow => ?_, fun idx hidx => ?_⟩
  · rw [hw.def_] at hidx ⊢
    rw [hw.rows] at hrow
    rcases rows_of_writes hrow with hrow | ⟨w, hmem, rfl, hnew⟩
    · exact h.entries idx hidx k row hrow
    · exact hw.entries idx hidx w hmem row hnew
  · rw [hw.def_] at hidx
    obtain ⟨tree, htree, hsorted⟩ := h.trees idx hidx
    exact ⟨_, by rw [hw.trees idx hidx, htree, Option.map_some], Inverse.slides_sorted hsorted _⟩

/-- Orderly writes keep a table indexed. -/
theorem TableImage.Indexed.wrote (h : a.Indexed) (hw : a.Wrote ws b)
    (hord : ∀ idx ∈ a.def_.indexes,
      Inverse.Orderly (a.keys idx) (ws.map (RowWrite.move a.def_ idx))) : b.Indexed := by
  refine ⟨(h.entered.wrote hw).entries, fun idx hidx => ?_⟩
  rw [hw.def_] at hidx
  obtain ⟨tree, htree, hi⟩ := h.trees idx hidx
  refine ⟨_, by rw [hw.trees idx hidx, htree, Option.map_some], ?_⟩
  have hkeys : b.keys idx = Inverse.moveAll (ws.map (RowWrite.move a.def_ idx)) (a.keys idx) := by
    have := keys_of_writes a.def_ idx ws a.rows
    rw [← hw.rows] at this
    rw [← show (fun k => indexKey a.def_ idx k (b.rows k)) = b.keys idx from by
      funext k
      rw [TableImage.keys, hw.def_]]
    exact this
  rw [hkeys]
  exact Inverse.slides_inverts hi (hord idx hidx)

end Writes

end Edb.Catalog
