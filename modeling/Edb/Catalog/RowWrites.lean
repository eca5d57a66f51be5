import Edb.Catalog.Batch
import Edb.Catalog.Lookup
import Edb.Lib.Inverse

/-!
# Row jobs as row writes

A row job that commits is a list of row writes: each puts one row in the place of another, or of
none, and moves the entries of the row in the indexes of its table. The trees are then those the
moves lead to, one after the other, and the rows are those written last (`CatState.Wrote`).
-/

namespace Edb.Catalog

open Edb.Types Edb.Lib

/-- The rows of a table, as they read. -/
def TableImage.rows (image : TableImage) (k : Bytes) : Option (List Value) :=
  (OrdMap.find k image.data).bind (fun bytes => (decodePadded image.def_ bytes).toOption)

/-- The key a row has in an index, if it has an entry there. -/
def indexKey (def_ : TableDef) (idx : IndexDef) (pkKey : Bytes) (row : Option (List Value)) :
    Option Bytes :=
  row.bind (fun row => (entryFor def_ idx row pkKey).toOption.join.map Entry.key)

theorem indexKey_some {d : TableDef} {idx : IndexDef} {pkKey : Bytes} {row : List Value}
    {e : Option Entry} (h : entryFor d idx row pkKey = .ok e) :
    indexKey d idx pkKey (some row) = e.map Entry.key := by
  rw [indexKey, Option.bind_some, h]
  rfl

/-- One write: a row that was there, or none, gives way to another, or to none. -/
structure RowWrite where
  pkKey : Bytes
  old : Option (List Value)
  new : Option (List Value)

/-- How a write moves its row in an index. -/
def RowWrite.move (def_ : TableDef) (idx : IndexDef) (w : RowWrite) : Inverse.Move Bytes Bytes :=
  ⟨w.pkKey, indexKey def_ idx w.pkKey w.old, indexKey def_ idx w.pkKey w.new⟩

/-- The rows after some writes. -/
def writeRows (ws : List RowWrite) (rows : Bytes → Option (List Value)) :
    Bytes → Option (List Value) :=
  ws.foldl (fun rows w => Function.update rows w.pkKey w.new) rows

theorem writeRows_cons (w : RowWrite) (ws : List RowWrite) (rows : Bytes → Option (List Value)) :
    writeRows (w :: ws) rows = writeRows ws (Function.update rows w.pkKey w.new) := rfl

theorem writeRows_append (ws ws' : List RowWrite) (rows : Bytes → Option (List Value)) :
    writeRows (ws ++ ws') rows = writeRows ws' (writeRows ws rows) := List.foldl_append

/-- What a table is like after some writes. -/
structure TableImage.Wrote (a : TableImage) (ws : List RowWrite) (b : TableImage) : Prop where
  def_ : b.def_ = a.def_
  rows : b.rows = writeRows ws a.rows
  trees : ∀ idx ∈ a.def_.indexes, OrdMap.find idx.name b.indexes =
    (OrdMap.find idx.name a.indexes).map (Inverse.slides (ws.map (RowWrite.move a.def_ idx)))
  entries : ∀ idx ∈ a.def_.indexes, ∀ w ∈ ws, ∀ row, w.new = some row →
    ∃ e, entryFor a.def_ idx row w.pkKey = .ok e

namespace TableImage.Wrote

theorem refl (a : TableImage) : a.Wrote [] a := by
  refine ⟨rfl, rfl, fun idx _ => ?_, fun _ _ w hw => absurd hw List.not_mem_nil⟩
  cases OrdMap.find idx.name a.indexes <;> rfl

theorem trans {a b c : TableImage} {ws ws' : List RowWrite} (h : a.Wrote ws b)
    (h' : b.Wrote ws' c) : a.Wrote (ws ++ ws') c := by
  refine ⟨h'.def_.trans h.def_, ?_, fun idx hidx => ?_, fun idx hidx w hw row hrow => ?_⟩
  · rw [writeRows_append, ← h.rows, h'.rows]
  · rw [h'.trees idx (h.def_ ▸ hidx), h.trees idx hidx, Option.map_map, h.def_]
    refine congrArg (fun f => Option.map f _) (funext fun tree => ?_)
    rw [List.map_append, Inverse.slides_append]
    rfl
  · rcases List.mem_append.1 hw with hw | hw
    · exact h.entries idx hidx w hw row hrow
    · exact h.def_ ▸ h'.entries idx (h.def_ ▸ hidx) w hw row hrow

/-- The rule for loops: each round is the write of its element. -/
theorem foldlM {α : Type} {f : TableImage → α → JobResult TableImage} {g : α → RowWrite}
    {l : List α} {a b : TableImage} (h : l.foldlM f a = .ok b)
    (hstep : ∀ x ∈ l, ∀ a' b', a'.def_ = a.def_ → f a' x = .ok b' → a'.Wrote [g x] b') :
    a.Wrote (l.map g) b := by
  induction l generalizing a with
  | nil =>
    cases h
    exact .refl _
  | cons x l ih =>
    obtain ⟨c, hc, h⟩ := Result.bind_eq_ok.1 h
    have hfirst := hstep x (by simp) a c rfl hc
    exact hfirst.trans (ih h (fun y hy a' b' hdef =>
      hstep y (List.mem_cons_of_mem _ hy) a' b' (hdef.trans hfirst.def_)))

end TableImage.Wrote

/-! ## Moving the entries of one row -/

/-- One index tree differs, by a function, and nothing else. -/
structure TableImage.EditsTree (a : TableImage) (index : String)
    (g : TreeContents → TreeContents) (b : TableImage) : Prop where
  sameRows : a.SameRows b
  trees : ∀ i, OrdMap.find i b.indexes =
    if i = index then (OrdMap.find i a.indexes).map g else OrdMap.find i a.indexes

theorem TableImage.EditsTree.refl (a : TableImage) (index : String) : a.EditsTree index id a := by
  refine ⟨.refl a, fun i => ?_⟩
  rw [Option.map_id, id_eq, ite_self]

theorem TableImage.EditsTree.trans {a b c : TableImage} {index : String}
    {g g' : TreeContents → TreeContents} (h : a.EditsTree index g b)
    (h' : b.EditsTree index g' c) : a.EditsTree index (g' ∘ g) c := by
  refine ⟨h.sameRows.trans h'.sameRows, fun i => ?_⟩
  rw [h'.trees, h.trees]
  split
  · rw [Option.map_map]
  · rfl

theorem TableImage.editIndex_editsTree {a b : TableImage} {index : String}
    {edit : TreeContents → JobResult TreeContents} {g : TreeContents → TreeContents}
    (h : a.editIndex index edit = .ok b) (hedit : ∀ t t', edit t = .ok t' → t' = g t) :
    a.EditsTree index g b := by
  refine ⟨TableImage.editIndex_sameRows h, fun i => ?_⟩
  obtain ⟨tree, htree, h⟩ := Result.bind_eq_ok.1 h
  obtain ⟨tree', htree', h⟩ := Result.bind_eq_ok.1 h
  cases h
  rw [TableImage.indexTree_eq_ok] at htree
  show OrdMap.find i (OrdMap.insert index tree' a.indexes) = _
  rw [OrdMap.find_insert]
  by_cases hi : i = index
  · rw [if_pos hi, if_pos hi.symm, hi, htree, hedit tree tree' htree', Option.map_some]
  · rw [if_neg hi, if_neg (fun h => hi h.symm)]

/-- Removing an entry removes its key. -/
theorem removeEntry_editsTree {a b : TableImage} {idx : IndexDef} {e : Option Entry}
    (h : removeEntry a idx e = .ok b) :
    a.EditsTree idx.name (fun tree => Inverse.dropKey tree (e.map Entry.key)) b := by
  cases e with
  | none =>
    cases h
    exact .refl a idx.name
  | some e =>
    refine TableImage.editIndex_editsTree h (fun t t' ht => ?_)
    cases ht
    rfl

/-- Inserting an entry puts its key. -/
theorem insertEntry_editsTree {a b : TableImage} {idx : IndexDef} {e : Option Entry}
    {pkKey : Bytes} (hvalue : ∀ e' ∈ e, e'.value = pkKey) (h : insertEntry a idx e = .ok b) :
    a.EditsTree idx.name (fun tree => Inverse.putKey pkKey tree (e.map Entry.key)) b := by
  cases e with
  | none =>
    cases h
    exact .refl a idx.name
  | some e =>
    refine TableImage.editIndex_editsTree h (fun t t' ht => ?_)
    rw [treeInsert_eq_ok ht, hvalue e rfl]
    rfl

/-- What moves the entry of a row in one index. -/
def moveIndex (def_ : TableDef) (pkKey : Bytes) (oldRow newRow : List Value) (image : TableImage)
    (idx : IndexDef) : JobResult TableImage := do
  match ← moved def_ idx pkKey oldRow newRow with
  | none => pure image
  | some (oldE, newE) => moveEntry image idx oldE newE

theorem moved_eq_ok {d : TableDef} {idx : IndexDef} {pkKey : Bytes} {oldRow newRow : List Value}
    {m : Option (Option Entry × Option Entry)} (h : moved d idx pkKey oldRow newRow = .ok m) :
    ∃ oldE newE, entryFor d idx oldRow pkKey = .ok oldE ∧ entryFor d idx newRow pkKey = .ok newE ∧
      m = if oldE.map Entry.key = newE.map Entry.key then none else some (oldE, newE) := by
  obtain ⟨oldE, hold, h⟩ := Result.bind_eq_ok.1 h
  obtain ⟨newE, hnew, h⟩ := Result.bind_eq_ok.1 h
  cases h
  exact ⟨oldE, newE, hold, hnew, rfl⟩

section OneRow

variable {a b : TableImage} {d : TableDef} {idx : IndexDef} {pkKey : Bytes}
  {oldRow newRow : List Value}

/-- Moving a row in an index removes its old key and puts its new one. -/
theorem moveIndex_editsTree (h : moveIndex d pkKey oldRow newRow a idx = .ok b) :
    a.EditsTree idx.name (Inverse.slide pkKey (indexKey d idx pkKey (some oldRow))
      (indexKey d idx pkKey (some newRow))) b ∧
      ∃ e, entryFor d idx newRow pkKey = .ok e := by
  obtain ⟨m, hm, h⟩ := Result.bind_eq_ok.1 h
  obtain ⟨oldE, newE, hold, hnew, rfl⟩ := moved_eq_ok hm
  rw [indexKey_some hold, indexKey_some hnew]
  refine ⟨?_, newE, hnew⟩
  by_cases hsame : oldE.map Entry.key = newE.map Entry.key
  · rw [if_pos hsame] at h
    cases h
    have hid : Inverse.slide pkKey (oldE.map Entry.key) (newE.map Entry.key) =
        (id : TreeContents → TreeContents) := funext fun tree => if_pos hsame
    rw [hid]
    exact .refl a idx.name
  · rw [if_neg hsame] at h
    obtain ⟨c, hc, h⟩ := Result.bind_eq_ok.1 h
    have hedits := (removeEntry_editsTree hc).trans (insertEntry_editsTree
      (fun e he => entryFor_value (hnew.trans (congrArg Except.ok he))) h)
    have hslide : Inverse.slide pkKey (oldE.map Entry.key) (newE.map Entry.key) =
        (fun tree => Inverse.putKey pkKey tree (newE.map Entry.key)) ∘
          (fun tree : TreeContents => Inverse.dropKey tree (oldE.map Entry.key)) :=
      funext fun tree => if_neg hsame
    rw [hslide]
    exact hedits

/-- A row's entries move index by index; the indexes have different names. -/
theorem foldlM_editsTree {f : TableImage → IndexDef → JobResult TableImage}
    {g : IndexDef → TreeContents → TreeContents} {idxs : List IndexDef}
    (hnames : idxs.Pairwise (fun i j => i.name ≠ j.name)) (h : idxs.foldlM f a = .ok b)
    (hstep : ∀ idx ∈ idxs, ∀ a' b', f a' idx = .ok b' → a'.EditsTree idx.name (g idx) b') :
    a.SameRows b ∧
      (∀ idx ∈ idxs, OrdMap.find idx.name b.indexes =
        (OrdMap.find idx.name a.indexes).map (g idx)) ∧
      ∀ i, (∀ idx ∈ idxs, idx.name ≠ i) → OrdMap.find i b.indexes = OrdMap.find i a.indexes := by
  induction idxs generalizing a with
  | nil =>
    cases h
    exact ⟨.refl _, fun idx hidx => absurd hidx List.not_mem_nil, fun _ _ => rfl⟩
  | cons first idxs ih =>
    obtain ⟨c, hc, h⟩ := Result.bind_eq_ok.1 h
    obtain ⟨hfirst, hnames⟩ := List.pairwise_cons.1 hnames
    have hedit := hstep first (by simp) a c hc
    obtain ⟨hsame, hself, hother⟩ := ih hnames h
      (fun idx hidx => hstep idx (List.mem_cons_of_mem _ hidx))
    refine ⟨hedit.sameRows.trans hsame, fun idx hidx => ?_, fun i hi => ?_⟩
    · rcases List.mem_cons.1 hidx with rfl | hidx
      · rw [hother idx.name (fun idx' hidx' => (hfirst idx' hidx').symm), hedit.trees, if_pos rfl]
      · rw [hself idx hidx, hedit.trees, if_neg (hfirst idx hidx).symm]
    · rw [hother i (fun idx hidx => hi idx (List.mem_cons_of_mem _ hidx)), hedit.trees,
        if_neg (hi first (by simp)).symm]

end OneRow

/-- The rows of a table with one stored or taken away. -/
theorem TableImage.rows_of_data {a b : TableImage} {k : Bytes} {new : Option (List Value)}
    (hdef : b.def_ = a.def_)
    (hself : (OrdMap.find k b.data).bind (fun bytes => (decodePadded a.def_ bytes).toOption) = new)
    (hother : ∀ k', k' ≠ k → OrdMap.find k' b.data = OrdMap.find k' a.data) :
    b.rows = Function.update a.rows k new := by
  funext k'
  rw [TableImage.rows, hdef]
  by_cases hk : k' = k
  · rw [hk, hself, Function.update_self]
  · rw [hother k' hk, Function.update_of_ne hk]
    rfl

/-! ## One write -/

/-- The rule for one write: a change of the rows, and a loop over the indexes. -/
theorem TableImage.Wrote.single {a b : TableImage} {w : RowWrite} {data : TreeContents}
    {f : TableImage → IndexDef → JobResult TableImage}
    (hnames : a.def_.indexes.Pairwise (fun i j => i.name ≠ j.name))
    (h : a.def_.indexes.foldlM f { a with data } = .ok b)
    (hdata : TableImage.rows { a with data } = Function.update a.rows w.pkKey w.new)
    (hstep : ∀ idx ∈ a.def_.indexes, ∀ a' b', f a' idx = .ok b' →
      a'.EditsTree idx.name (Inverse.slide w.pkKey (indexKey a.def_ idx w.pkKey w.old)
        (indexKey a.def_ idx w.pkKey w.new)) b' ∧
      ∀ row, w.new = some row → ∃ e, entryFor a.def_ idx row w.pkKey = .ok e) :
    a.Wrote [w] b := by
  obtain ⟨hsame, htrees, -⟩ := foldlM_editsTree hnames h
    (fun idx hidx a' b' hf => (hstep idx hidx a' b' hf).1)
  refine ⟨hsame.1, ?_, htrees, fun idx hidx w' hw' row hrow => ?_⟩
  · show b.rows = Function.update a.rows w.pkKey w.new
    rw [← hdata]
    funext k
    rw [TableImage.rows, hsame.1, hsame.2]
    rfl
  · rw [List.mem_singleton.1 hw'] at hrow ⊢
    obtain ⟨c, c', hc⟩ := Result.round_of_foldlM h hidx
    exact (hstep idx hidx c c' hc).2 row hrow

theorem TableImage.rows_insert (a : TableImage) {k bytes : Bytes} {row : List Value}
    (h : decodePadded a.def_ bytes = .ok row) :
    TableImage.rows { a with data := OrdMap.insert k bytes a.data } =
      Function.update a.rows k (some row) := by
  refine TableImage.rows_of_data rfl ?_ (fun k' hk => ?_)
  · rw [OrdMap.find_insert, if_pos rfl, Option.bind_some, h]
    rfl
  · rw [OrdMap.find_insert, if_neg (Ne.symm hk)]

theorem TableImage.rows_erase (a : TableImage) (k : Bytes) :
    TableImage.rows { a with data := OrdMap.erase k a.data } = Function.update a.rows k none := by
  refine TableImage.rows_of_data rfl ?_ (fun k' hk => ?_)
  · rw [OrdMap.find_erase, if_pos rfl]
    rfl
  · rw [OrdMap.find_erase, if_neg (Ne.symm hk)]

section OneWrite

variable {a b : TableImage} {d : TableDef} {pkKey : Bytes} {oldRow newRow row : List Value}

/-- The entries an update moves are those of its indexes, in order. -/
theorem foldlM_rowMoves {check : EntryCheck} {idxs : List IndexDef}
    {moves : List (IndexDef × Option Entry × Option Entry)}
    (h : rowMoves check d pkKey oldRow newRow idxs = .ok moves) (a : TableImage) :
    moves.foldlM (fun image m => moveEntry image m.1 m.2.1 m.2.2) a =
      idxs.foldlM (moveIndex d pkKey oldRow newRow) a := by
  induction idxs generalizing moves a with
  | nil =>
    cases h
    rfl
  | cons idx idxs ih =>
    obtain ⟨m, hm, h⟩ := Result.bind_eq_ok.1 h
    obtain ⟨_, -, h⟩ := Result.bind_eq_ok.1 h
    obtain ⟨rest, hrest, h⟩ := Result.bind_eq_ok.1 h
    cases h
    rw [List.foldlM_append, List.foldlM_cons, moveIndex, hm]
    cases m with
    | none => exact ih hrest a
    | some m =>
      show (moveEntry a idx m.1 m.2 >>= pure) >>= _ = moveEntry a idx m.1 m.2 >>= _
      rw [bind_pure]
      exact congrArg _ (funext fun c => ih hrest c)

/-- The write an update makes of a row. -/
def RowDelta.write (d : RowDelta) : RowWrite := ⟨d.pkKey, some d.oldRow, some d.newRow⟩

/-- Applying the change of a row is one write. -/
theorem applyDelta_wrote {check : EntryCheck} {delta : RowDelta}
    (hnames : a.def_.indexes.Pairwise (fun i j => i.name ≠ j.name))
    (hmoves : rowMoves check a.def_ delta.pkKey delta.oldRow delta.newRow a.def_.indexes =
      .ok delta.moves)
    (hreads : decodePadded a.def_ delta.bytes = .ok delta.newRow)
    (h : applyDelta a delta = .ok b) : a.Wrote [delta.write] b := by
  obtain ⟨data, hdata, h⟩ := Result.bind_eq_ok.1 h
  rw [treeInsert_eq_ok hdata, foldlM_rowMoves hmoves] at h
  refine .single hnames h (a.rows_insert hreads) (fun idx _ a' b' hf => ?_)
  obtain ⟨hedits, hentry⟩ := moveIndex_editsTree hf
  refine ⟨hedits, fun row hrow => ?_⟩
  cases hrow
  exact hentry

/-- Rewriting a row is one write. -/
theorem rewriteRow_wrote {bytes : Bytes}
    (hnames : a.def_.indexes.Pairwise (fun i j => i.name ≠ j.name))
    (hreads : decodePadded a.def_ bytes = .ok newRow)
    (h : a.def_.indexes.foldlM (moveIndex a.def_ pkKey oldRow newRow)
      { a with data := OrdMap.insert pkKey bytes a.data } = .ok b) :
    a.Wrote [⟨pkKey, some oldRow, some newRow⟩] b := by
  refine .single hnames h (a.rows_insert hreads) (fun idx _ a' b' hf => ?_)
  obtain ⟨hedits, hentry⟩ := moveIndex_editsTree hf
  refine ⟨hedits, fun row hrow => ?_⟩
  cases hrow
  exact hentry

/-- Deleting a row is one write, of no row. -/
theorem deleteRow_wrote (hnames : a.def_.indexes.Pairwise (fun i j => i.name ≠ j.name))
    (h : a.def_.indexes.foldlM (fun image idx => do
        let e ← entryFor a.def_ idx row pkKey
        removeEntry image idx e) { a with data := OrdMap.erase pkKey a.data } = .ok b) :
    a.Wrote [⟨pkKey, some row, none⟩] b := by
  refine .single hnames h (a.rows_erase pkKey) (fun idx _ a' b' hf => ⟨?_, ?_⟩)
  · obtain ⟨e, he, hf⟩ := Result.bind_eq_ok.1 hf
    have hslide : Inverse.slide pkKey (indexKey a.def_ idx pkKey (some row))
        (indexKey a.def_ idx pkKey none) =
        (fun tree : TreeContents => Inverse.dropKey tree (e.map Entry.key)) :=
      funext fun tree => by
        rw [indexKey_some he]
        exact Inverse.slide_to_none pkKey _ tree
    show a'.EditsTree idx.name (Inverse.slide pkKey (indexKey a.def_ idx pkKey (some row))
      (indexKey a.def_ idx pkKey none)) b'
    rw [hslide]
    exact removeEntry_editsTree hf
  · intro row' hrow'
    cases hrow'

/-- What puts the entry of a new row in one index. -/
def putIndex (def_ : TableDef) (pkKey : Bytes) (row : List Value) (image : TableImage)
    (idx : IndexDef) : JobResult TableImage := do
  let e ← entryFor def_ idx row pkKey
  insertEntry image idx e

/-- The entries staged for a row are those of the indexes, in order. -/
theorem foldlM_stageEntries {image : TableImage} {taken : List (String × Bytes)}
    {idxs : List IndexDef} {entries : List (IndexDef × Entry)}
    (h : stageEntries image row pkKey taken idxs = .ok entries) (a : TableImage) :
    entries.foldlM (fun image e => insertEntry image e.1 (some e.2)) a =
      idxs.foldlM (putIndex image.def_ pkKey row) a := by
  induction idxs generalizing entries a with
  | nil =>
    cases h
    rfl
  | cons idx idxs ih =>
    rw [List.foldlM_cons, putIndex]
    rcases stageEntries_cons.1 h with ⟨he, h⟩ | ⟨e, rest, he, -, -, hrest, rfl⟩
    · rw [he]
      exact ih h a
    · rw [he]
      exact congrArg _ (funext fun c => ih hrest c)

/-- The write an insert makes of a row. -/
def StagedRow.write (r : StagedRow) : RowWrite := ⟨r.pkKey, none, some r.row⟩

/-- Storing a staged row is one write. -/
theorem applyStaged_wrote {r : StagedRow} {image : TableImage} {taken : List (String × Bytes)}
    (hdef : image.def_ = a.def_)
    (hnames : a.def_.indexes.Pairwise (fun i j => i.name ≠ j.name))
    (hentries : stageEntries image r.row r.pkKey taken image.def_.indexes = .ok r.entries)
    (hreads : decodePadded a.def_ r.bytes = .ok r.row)
    (h : applyStaged a r = .ok b) : a.Wrote [r.write] b := by
  obtain ⟨data, hdata, h⟩ := Result.bind_eq_ok.1 h
  rw [treeInsert_eq_ok hdata, foldlM_stageEntries hentries, hdef] at h
  refine .single hnames h (a.rows_insert hreads) (fun idx _ a' b' hf => ?_)
  obtain ⟨e, he, hf⟩ := Result.bind_eq_ok.1 hf
  constructor
  · have hslide : Inverse.slide r.pkKey (indexKey a.def_ idx r.pkKey none)
        (indexKey a.def_ idx r.pkKey (some r.row)) =
        (fun tree : TreeContents => Inverse.putKey r.pkKey tree (e.map Entry.key)) :=
      funext fun tree => by
        rw [indexKey_some he]
        exact Inverse.slide_none r.pkKey _ tree
    show a'.EditsTree idx.name (Inverse.slide r.pkKey (indexKey a.def_ idx r.pkKey none)
      (indexKey a.def_ idx r.pkKey (some r.row))) b'
    rw [hslide]
    exact insertEntry_editsTree
      (fun e' he' => entryFor_value (he.trans (congrArg Except.ok he'))) hf
  · intro row hrow
    cases hrow
    exact ⟨e, he⟩

end OneWrite

/-! ## The writes of a job -/

/-- The writes to one table, in order. -/
def writesOn (t : String) (ws : List (String × RowWrite)) : List RowWrite :=
  (ws.filter (fun w => w.1 = t)).map Prod.snd

@[simp] theorem writesOn_append (t : String) (ws ws' : List (String × RowWrite)) :
    writesOn t (ws ++ ws') = writesOn t ws ++ writesOn t ws' := by
  rw [writesOn, List.filter_append, List.map_append]
  rfl

theorem writesOn_single (t t' : String) (w : RowWrite) :
    writesOn t [(t', w)] = if t' = t then [w] else [] := by
  by_cases h : t' = t <;> simp [writesOn, h]

theorem mem_writesOn {t : String} {ws : List (String × RowWrite)} {w : RowWrite} :
    w ∈ writesOn t ws ↔ (t, w) ∈ ws := by
  simp [writesOn]

/-- The writes to one table that are all of that table. -/
theorem writesOn_map {α : Type} (t t' : String) (f : α → RowWrite) (l : List α) :
    writesOn t (l.map (fun x => (t', f x))) = if t' = t then l.map f else [] := by
  by_cases h : t' = t <;> simp [writesOn, h, List.filter_map, Function.comp_def]

/-- Every table is as its writes left it. -/
def CatState.Wrote (s : CatState) (ws : List (String × RowWrite)) (s' : CatState) : Prop :=
  ∀ t a, OrdMap.find t s.tables = some a →
    ∃ b, OrdMap.find t s'.tables = some b ∧ a.Wrote (writesOn t ws) b

namespace CatState.Wrote

variable {s s' s'' : CatState} {ws ws' : List (String × RowWrite)}

theorem refl (s : CatState) : s.Wrote [] s := fun _ a ha => ⟨a, ha, .refl a⟩

theorem trans (h : s.Wrote ws s') (h' : s'.Wrote ws' s'') : s.Wrote (ws ++ ws') s'' := by
  intro t a ha
  obtain ⟨b, hb, hab⟩ := h t a ha
  obtain ⟨c, hc, hbc⟩ := h' t b hb
  exact ⟨c, hc, by rw [writesOn_append]; exact hab.trans hbc⟩

/-- Writes to one table. -/
theorem store {t : String} {a b : TableImage} {l : List RowWrite}
    (ha : OrdMap.find t s.tables = some a) (h : a.Wrote l b) :
    s.Wrote (l.map (fun w => (t, w))) (s.store t b) := by
  intro t' a' ha'
  rw [CatState.find_store, writesOn_map]
  by_cases ht : t' = t
  · rw [if_pos ht, if_pos ht.symm]
    rw [ht, ha] at ha'
    cases ha'
    exact ⟨b, rfl, by rw [List.map_id']; exact h⟩
  · rw [if_neg ht, if_neg (Ne.symm ht)]
    exact ⟨a', ha', .refl a'⟩

end CatState.Wrote

/-- The definitions are those of the tables of a state, whose indexes have different names. -/
structure CatState.Listed (s : CatState) (tables : List TableDef) : Prop where
  find : ∀ t, tables.find? (fun d => d.name = t) = (OrdMap.find t s.tables).map TableImage.def_
  indexNames : ∀ t image, OrdMap.find t s.tables = some image →
    image.def_.indexes.Pairwise (fun i j => i.name ≠ j.name)

theorem CatState.WellFormed.listed {s : CatState} (hs : s.WellFormed) : s.Listed s.allTables :=
  ⟨hs.find_allTables, fun t image himage => (hs.tables t image himage).def_.indexNames⟩

theorem CatState.Listed.same {s s' : CatState} {tables : List TableDef} (h : s.Listed tables)
    (hs : s.SameDefs s') : s'.Listed tables := by
  refine ⟨fun t => (h.find t).trans (hs t).symm, fun t image himage => ?_⟩
  have hdef := hs t
  rw [himage, Option.map_some] at hdef
  obtain ⟨a, ha, heq⟩ := Option.map_eq_some_iff.1 hdef.symm
  exact heq ▸ h.indexNames t a ha

/-- The write a closure makes of a row it deletes. -/
def deleteWrite (d : RowRef × List Value) : String × RowWrite :=
  ((ofLex d.1).1, ⟨(ofLex d.1).2, some d.2, none⟩)

/-- The write a closure makes of a row it rewrites. -/
def rewriteWrite (r : RowRef × (List Value × List Value)) : String × RowWrite :=
  ((ofLex r.1).1, ⟨(ofLex r.1).2, some r.2.1, some r.2.2⟩)

/-- The writes of a closure. -/
def Cascade.writes (plan : Cascade) : List (String × RowWrite) :=
  plan.deletes.map deleteWrite ++ plan.rewrites.map rewriteWrite

section Closure

variable {s s' : CatState} {tables : List TableDef}

theorem deleteRowIndexed_wrote {d : TableDef} {pkKey : Bytes} {row : List Value} {a : TableImage}
    (ha : OrdMap.find d.name s.tables = some a) (hdef : a.def_ = d)
    (hnames : a.def_.indexes.Pairwise (fun i j => i.name ≠ j.name))
    (h : deleteRowIndexed s d pkKey row = .ok s') :
    s.SameDefs s' ∧ s.Wrote [(d.name, ⟨pkKey, some row, none⟩)] s' := by
  obtain ⟨a', ha', h⟩ := Result.bind_eq_ok.1 h
  cases ha.symm.trans (CatState.load_eq_ok.1 ha')
  obtain ⟨_, -, h⟩ := Result.bind_eq_ok.1 h
  obtain ⟨b, hb, h⟩ := Result.bind_eq_ok.1 h
  cases h
  subst hdef
  have hwrote := deleteRow_wrote hnames hb
  exact ⟨.store ha hwrote.def_, .store ha hwrote⟩

theorem rewriteRowIndexed_wrote {d : TableDef} {pkKey : Bytes} {oldRow newRow : List Value}
    {a : TableImage} (ha : OrdMap.find d.name s.tables = some a) (hdef : a.def_ = d)
    (hnames : a.def_.indexes.Pairwise (fun i j => i.name ≠ j.name))
    (hlen : newRow.length = d.columns.length)
    (h : rewriteRowIndexed s d pkKey oldRow newRow = .ok s') :
    s.SameDefs s' ∧ s.Wrote [(d.name, ⟨pkKey, some oldRow, some newRow⟩)] s' := by
  obtain ⟨a', ha', h⟩ := Result.bind_eq_ok.1 h
  cases ha.symm.trans (CatState.load_eq_ok.1 ha')
  obtain ⟨_, -, h⟩ := Result.bind_eq_ok.1 h
  obtain ⟨bytes, hbytes, h⟩ := Result.bind_eq_ok.1 h
  obtain ⟨data, hdata, h⟩ := Result.bind_eq_ok.1 h
  obtain ⟨b, hb, h⟩ := Result.bind_eq_ok.1 h
  cases h
  subst hdef
  rw [rej_eq_ok, ofType_eq_ok] at hbytes
  rw [treeInsert_eq_ok hdata] at hb
  have hwrote := rewriteRow_wrote hnames (decodePadded_encodeRow hbytes hlen) hb
  exact ⟨.store ha hwrote.def_, .store ha hwrote⟩

/-- A step on a table by its definition; a table that is not listed is passed over. -/
def onTable (tables : List TableDef) (t : String) (step : TableDef → JobResult CatState)
    (s : CatState) : JobResult CatState :=
  match tables.find? (fun d => d.name = t) with
  | none => .ok s
  | some d => step d

/-- The rule for the loops of a closure, over its deletes and over its rewrites. -/
theorem CatState.Listed.foldlM {α : Type} (step : CatState → TableDef → α → JobResult CatState)
    (table : α → String) (write : α → String × RowWrite) {l : List α} (hl : s.Listed tables)
    (hwrite : ∀ x ∈ l, (write x).1 = table x)
    (hstep : ∀ x ∈ l, ∀ s₁ s₂ a, s.SameDefs s₁ → s₁.Listed tables →
      OrdMap.find (table x) s₁.tables = some a → step s₁ a.def_ x = .ok s₂ →
      s₁.SameDefs s₂ ∧ s₁.Wrote [write x] s₂)
    (h : l.foldlM (fun s x => onTable tables (table x) (fun d => step s d x) s) s = .ok s') :
    s.SameDefs s' ∧ s.Wrote (l.map write) s' := by
  induction l generalizing s with
  | nil =>
    cases h
    exact ⟨.refl _, .refl _⟩
  | cons x l ih =>
    obtain ⟨s₁, hx, h⟩ := Result.bind_eq_ok.1 h
    -- the first step writes its row, or skips a row of no table
    have hfirst : s.SameDefs s₁ ∧ s.Wrote [write x] s₁ := by
      change onTable tables (table x) (fun d => step s d x) s = .ok s₁ at hx
      rw [onTable, hl.find] at hx
      cases ha : OrdMap.find (table x) s.tables with
      | none =>
        rw [ha] at hx
        cases hx
        refine ⟨.refl _, fun t a' ha' => ?_⟩
        refine ⟨a', ha', ?_⟩
        have hne : (write x).1 ≠ t := by
          intro heq
          rw [hwrite x (by simp)] at heq
          rw [heq, ha'] at ha
          cases ha
        rw [show write x = ((write x).1, (write x).2) from rfl, writesOn_single, if_neg hne]
        exact .refl a'
      | some a =>
        rw [ha] at hx
        exact hstep x (by simp) s s₁ a (.refl s) hl ha hx
    obtain ⟨hsame, hwrote⟩ := ih (hl.same hfirst.1)
      (fun y hy => hwrite y (List.mem_cons_of_mem _ hy))
      (fun y hy s₂ s₃ a hs => hstep y (List.mem_cons_of_mem _ hy) s₂ s₃ a (hfirst.1.trans hs)) h
    exact ⟨hfirst.1.trans hsame, hfirst.2.trans hwrote⟩

/-- A closure is its deletes and then its rewrites. -/
theorem applyCascade_wrote {plan : Cascade} (hl : s.Listed tables)
    (hlen : ∀ r ∈ plan.rewrites, ∀ image, OrdMap.find (ofLex r.1).1 s.tables = some image →
      r.2.2.length = image.def_.columns.length)
    (h : applyCascade s tables plan = .ok s') :
    s.SameDefs s' ∧ s.Wrote plan.writes s' := by
  obtain ⟨s₁, hdel, hrew⟩ := Result.bind_eq_ok.1 h
  have hnamed : ∀ {s : CatState} {t : String} {a : TableImage}, s.Listed tables →
      OrdMap.find t s.tables = some a → a.def_.name = t := by
    intro s t a hl ha
    have hfind := hl.find t
    rw [ha, Option.map_some] at hfind
    simpa using List.find?_some hfind
  -- the two folds, with the table of a row looked up in each step
  have hdel' : plan.deletes.foldlM (fun s d => onTable tables (ofLex d.1).1
      (fun def_ => deleteRowIndexed s def_ (ofLex d.1).2 d.2) s) s = .ok s₁ := hdel
  have hrew' : plan.rewrites.foldlM (fun s r => onTable tables (ofLex r.1).1
      (fun def_ => rewriteRowIndexed s def_ (ofLex r.1).2 r.2.1 r.2.2) s) s₁ = .ok s' := hrew
  obtain ⟨hsame, hwrote⟩ := CatState.Listed.foldlM
    (fun s def_ d => deleteRowIndexed s def_ (ofLex d.1).2 d.2) (fun d => (ofLex d.1).1) deleteWrite
    hl (fun _ _ => rfl) (by
      intro d _ s₂ s₃ a _ hl ha hstep
      have hname := hnamed hl ha
      have := deleteRowIndexed_wrote (hname.symm ▸ ha) rfl (hl.indexNames _ a ha) hstep
      rw [hname] at this
      exact this) hdel'
  obtain ⟨hsame', hwrote'⟩ := CatState.Listed.foldlM
    (fun s def_ r => rewriteRowIndexed s def_ (ofLex r.1).2 r.2.1 r.2.2) (fun r => (ofLex r.1).1)
    rewriteWrite (hl.same hsame) (fun _ _ => rfl) (by
      intro r hr s₂ s₃ a hs hl' ha hstep
      have hname := hnamed hl' ha
      have hdef := (hsame.trans hs) (ofLex r.1).1
      rw [ha, Option.map_some] at hdef
      obtain ⟨a₀, ha₀, heq⟩ := Option.map_eq_some_iff.1 hdef.symm
      have := rewriteRowIndexed_wrote (hname.symm ▸ ha) rfl (hl'.indexNames _ a ha)
        (heq ▸ hlen r hr a₀ ha₀) hstep
      rw [hname] at this
      exact this) hrew'
  exact ⟨hsame.trans hsame', hwrote.trans hwrote'⟩

end Closure

end Edb.Catalog
