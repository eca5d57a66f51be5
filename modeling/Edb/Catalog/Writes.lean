import Edb.Catalog.Edit
import Edb.Catalog.Paged

/-!
# Row jobs on the pages

A row job that commits comes down to edits of the trees of some tables (`CatState.write`). The
same edits, made by the write transaction of the store on pages that hold the state before the
job, lead to pages that hold the state after it (`rowJob_stores`): the ordered maps of a state
and the trees a write transaction edits agree before and after, and so do all reads of them.
-/

namespace Edb.Catalog

open Edb.Types Edb.Lib Edb.Txn TreeJob

/-! ## Writes to a state -/

/-- One edit of the trees of a table. -/
def TableImage.edit (image : TableImage) : TreeEdit → TableImage
  | .row op => { image with data := op.on image.data }
  | .entry i op =>
    match image.def_.indexes[i]? with
    | none => image
    | some idx =>
      match OrdMap.find idx.name image.indexes with
      | none => image
      | some tree => { image with indexes := OrdMap.insert idx.name (op.on tree) image.indexes }

/-- What is written to one table. -/
def CatState.write (s : CatState) (w : TableWrite) : CatState :=
  match OrdMap.find w.table s.tables with
  | none => s
  | some image =>
    let s := s.store w.table (w.edits.foldl TableImage.edit image)
    match w.seq with
    | none => s
    | some seq => s.storeSeq w.table seq

namespace TableImage

theorem edit_def (image : TableImage) (edit : TreeEdit) : (image.edit edit).def_ = image.def_ := by
  cases edit with
  | row op => rfl
  | entry i op =>
    rw [TableImage.edit]
    split
    · rfl
    · split <;> rfl

theorem edits_def (image : TableImage) (edits : List TreeEdit) :
    (edits.foldl TableImage.edit image).def_ = image.def_ := by
  induction edits generalizing image with
  | nil => rfl
  | cons edit edits ih => exact (ih _).trans (image.edit_def edit)

theorem edit_isSome (image : TableImage) (edit : TreeEdit) (name : String) :
    (OrdMap.find name (image.edit edit).indexes).isSome =
      (OrdMap.find name image.indexes).isSome := by
  cases edit with
  | row op => rfl
  | entry i op =>
    rw [TableImage.edit]
    split
    · rfl
    · split
      · rfl
      · next tree hfind =>
        show (OrdMap.find name (OrdMap.insert _ _ image.indexes)).isSome = _
        rw [OrdMap.find_insert]
        split
        · next heq => rw [← heq, hfind]; rfl
        · rfl

theorem edits_isSome (image : TableImage) (edits : List TreeEdit) (name : String) :
    (OrdMap.find name (edits.foldl TableImage.edit image).indexes).isSome =
      (OrdMap.find name image.indexes).isSome := by
  induction edits generalizing image with
  | nil => rfl
  | cons edit edits ih => exact (ih _).trans (image.edit_isSome edit name)

end TableImage

section CatState

variable {s : CatState} {w : TableWrite} {image : TableImage}

theorem CatState.write_tables (h : OrdMap.find w.table s.tables = some image) :
    (s.write w).tables =
      OrdMap.insert w.table (w.edits.foldl TableImage.edit image) s.tables := by
  rw [CatState.write, h]
  cases w.seq <;> rfl

theorem CatState.find_write_seqs (h : OrdMap.find w.table s.tables = some image)
    (table : String) : OrdMap.find table (s.write w).seqs =
      if w.table = table then w.seq.or (OrdMap.find table s.seqs)
      else OrdMap.find table s.seqs := by
  rw [CatState.write, h]
  cases w.seq with
  | none => exact (ite_self _).symm
  | some seq => exact OrdMap.find_insert w.table table seq s.seqs

theorem CatState.write_sorted (hs : OrdMap.Sorted s.tables) : OrdMap.Sorted (s.write w).tables := by
  cases h : OrdMap.find w.table s.tables with
  | none =>
    rw [CatState.write, h]
    exact hs
  | some image =>
    rw [CatState.write_tables h]
    exact hs.insert

end CatState

/-! ## Row jobs as writes -/

/-- Edits lead from one form of a table to another. -/
def TableImage.EditedTo (a b : TableImage) : Prop :=
  ∃ edits : List TreeEdit, edits.foldl TableImage.edit a = b

namespace TableImage.EditedTo

variable {a b c : TableImage}

theorem refl (a : TableImage) : a.EditedTo a := ⟨[], rfl⟩

theorem trans (h : a.EditedTo b) (h' : b.EditedTo c) : a.EditedTo c := by
  obtain ⟨edits, rfl⟩ := h
  obtain ⟨edits', rfl⟩ := h'
  exact ⟨edits ++ edits', List.foldl_append⟩

theorem def_eq (h : a.EditedTo b) : b.def_ = a.def_ := by
  obtain ⟨edits, rfl⟩ := h
  exact a.edits_def edits

theorem row (a : TableImage) (op : Op) : a.EditedTo { a with data := op.on a.data } :=
  ⟨[.row op], rfl⟩

/-- The tree of an index of the definition is mutated. -/
theorem editIndex {idx : IndexDef} (op : Op) {edit : TreeContents → JobResult TreeContents}
    (hidx : idx ∈ a.def_.indexes) (hedit : ∀ tree tree', edit tree = .ok tree' → tree' = op.on tree)
    (h : a.editIndex idx.name edit = .ok b) : a.EditedTo b := by
  obtain ⟨i, hi⟩ := List.mem_iff_getElem?.1 hidx
  obtain ⟨tree, htree, h⟩ := Result.bind_eq_ok.1 h
  obtain ⟨tree', htree', h⟩ := Result.bind_eq_ok.1 h
  cases h
  refine ⟨[.entry i op], ?_⟩
  rw [List.foldl_cons, List.foldl_nil, TableImage.edit, hi]
  simp only [TableImage.indexTree_eq_ok.1 htree, hedit tree tree' htree']

theorem removeEntry {idx : IndexDef} {e : Option Entry} (hidx : idx ∈ a.def_.indexes)
    (h : removeEntry a idx e = .ok b) : a.EditedTo b := by
  cases e with
  | none =>
    cases h
    exact .refl a
  | some e =>
    refine editIndex (.delete e.key) hidx (fun tree tree' htree => ?_) h
    cases htree
    rfl

theorem insertEntry {idx : IndexDef} {e : Option Entry} (hidx : idx ∈ a.def_.indexes)
    (h : insertEntry a idx e = .ok b) : a.EditedTo b := by
  cases e with
  | none =>
    cases h
    exact .refl a
  | some e =>
    exact editIndex (.put e.key e.value) hidx (fun tree tree' htree =>
      treeInsert_eq_ok htree) h

theorem moveEntry {idx : IndexDef} {oldE newE : Option Entry} (hidx : idx ∈ a.def_.indexes)
    (h : moveEntry a idx oldE newE = .ok b) : a.EditedTo b := by
  obtain ⟨c, hc, h⟩ := Result.bind_eq_ok.1 h
  have hfirst := removeEntry hidx hc
  exact hfirst.trans (insertEntry (hfirst.def_eq ▸ hidx) h)

/-- A loop over a table's image edits it when every round does. -/
theorem foldlM {α : Type} {f : TableImage → α → JobResult TableImage} {l : List α}
    (h : l.foldlM f a = .ok b)
    (hstep : ∀ x ∈ l, ∀ b c, b.def_ = a.def_ → f b x = .ok c → b.EditedTo c) :
    a.EditedTo b := by
  apply Result.foldlM_invariant (I := fun b => a.EditedTo b) h (.refl a)
  intro x hx b c hb hc
  exact hb.trans (hstep x hx b c hb.def_eq hc)

theorem applyStaged {r : StagedRow} {image : TableImage} {taken : List (String × Bytes)}
    (hdef : image.def_ = a.def_)
    (hentries : stageEntries image r.row r.pkKey taken image.def_.indexes = .ok r.entries)
    (h : applyStaged a r = .ok b) : a.EditedTo b := by
  obtain ⟨data, hdata, h⟩ := Result.bind_eq_ok.1 h
  rw [treeInsert_eq_ok hdata, foldlM_stageEntries hentries, hdef] at h
  refine (row a (.put r.pkKey r.bytes)).trans (foldlM h (fun idx hidx b c hb hc => ?_))
  obtain ⟨e, -, hc⟩ := Result.bind_eq_ok.1 hc
  exact insertEntry (hb ▸ hidx) hc

theorem applyDelta {check : EntryCheck} {d : RowDelta}
    (hmoves : rowMoves check a.def_ d.pkKey d.oldRow d.newRow a.def_.indexes = .ok d.moves)
    (h : applyDelta a d = .ok b) : a.EditedTo b := by
  obtain ⟨data, hdata, h⟩ := Result.bind_eq_ok.1 h
  rw [treeInsert_eq_ok hdata] at h
  refine (row a (.put d.pkKey d.bytes)).trans (foldlM h (fun m hm b c hb hc => ?_))
  exact moveEntry (hb ▸ (rowMoves_checked hmoves m hm).1) hc

end TableImage.EditedTo

/-- Writes lead from one state to another. -/
def CatState.WrittenTo (s s' : CatState) : Prop :=
  ∃ writes : List TableWrite, writes.foldl CatState.write s = s'

namespace CatState.WrittenTo

variable {s s' s'' : CatState} {tables : List TableDef}

theorem refl (s : CatState) : s.WrittenTo s := ⟨[], rfl⟩

theorem trans (h : s.WrittenTo s') (h' : s'.WrittenTo s'') : s.WrittenTo s'' := by
  obtain ⟨writes, rfl⟩ := h
  obtain ⟨writes', rfl⟩ := h'
  exact ⟨writes ++ writes', List.foldl_append⟩

/-- The edits of one table, stored with the sequence if it has moved. -/
theorem store {table : String} {a b : TableImage} (ha : OrdMap.find table s.tables = some a)
    (h : a.EditedTo b) (seq : Option Int64) :
    s.WrittenTo (seq.elim (s.store table b) ((s.store table b).storeSeq table)) := by
  obtain ⟨edits, rfl⟩ := h
  refine ⟨[⟨table, edits, true, seq⟩], ?_⟩
  rw [List.foldl_cons, List.foldl_nil, CatState.write, ha]
  cases seq <;> rfl

/-- Writes to rows change no definition. -/
theorem sameDefs (h : s.WrittenTo s') : s.SameDefs s' := by
  obtain ⟨writes, rfl⟩ := h
  induction writes generalizing s with
  | nil => exact .refl s
  | cons w writes ih =>
    refine CatState.SameDefs.trans ?_ ih
    cases ha : OrdMap.find w.table s.tables with
    | none =>
      rw [CatState.write, ha]
      exact .refl s
    | some a =>
      intro t
      rw [CatState.write_tables ha]
      exact CatState.SameDefs.store ha (a.edits_def w.edits) t

/-- A loop over states is writes when every round is. -/
theorem foldlM {α : Type} {f : CatState → α → JobResult CatState} {l : List α}
    (h : l.foldlM f s = .ok s')
    (hstep : ∀ x ∈ l, ∀ s₁ s₂, s.WrittenTo s₁ → f s₁ x = .ok s₂ → s₁.WrittenTo s₂) :
    s.WrittenTo s' := by
  apply Result.foldlM_invariant (I := fun s₁ => s.WrittenTo s₁) h (.refl s)
  intro x hx s₁ s₂ hs hf
  exact hs.trans (hstep x hx s₁ s₂ hs hf)

/-- Deleting a row is a write of its table. -/
theorem deleteRowIndexed {pkKey : Bytes} {row : List Value} {a : TableImage}
    (ha : OrdMap.find a.def_.name s.tables = some a)
    (h : deleteRowIndexed s a.def_ pkKey row = .ok s') : s.WrittenTo s' := by
  obtain ⟨a', ha', h⟩ := Result.bind_eq_ok.1 h
  cases ha.symm.trans (CatState.load_eq_ok.1 ha')
  obtain ⟨_, -, h⟩ := Result.bind_eq_ok.1 h
  obtain ⟨b, hb, h⟩ := Result.bind_eq_ok.1 h
  cases h
  refine store ha ((TableImage.EditedTo.row a (.delete pkKey)).trans
    (.foldlM hb (fun idx hidx b c hdef hc => ?_))) none
  obtain ⟨e, -, hc⟩ := Result.bind_eq_ok.1 hc
  exact .removeEntry (hdef ▸ hidx) hc

/-- Rewriting a row is a write of its table. -/
theorem rewriteRowIndexed {pkKey : Bytes} {oldRow newRow : List Value} {a : TableImage}
    (ha : OrdMap.find a.def_.name s.tables = some a)
    (h : rewriteRowIndexed s a.def_ pkKey oldRow newRow = .ok s') : s.WrittenTo s' := by
  obtain ⟨a', ha', h⟩ := Result.bind_eq_ok.1 h
  cases ha.symm.trans (CatState.load_eq_ok.1 ha')
  obtain ⟨_, -, h⟩ := Result.bind_eq_ok.1 h
  obtain ⟨bytes, -, h⟩ := Result.bind_eq_ok.1 h
  obtain ⟨data, hdata, h⟩ := Result.bind_eq_ok.1 h
  obtain ⟨b, hb, h⟩ := Result.bind_eq_ok.1 h
  cases h
  rw [treeInsert_eq_ok hdata] at hb
  refine store ha ((TableImage.EditedTo.row a (.put pkKey bytes)).trans
    (.foldlM hb (fun idx hidx b c hdef hc => ?_))) none
  obtain ⟨m, -, hc⟩ := Result.bind_eq_ok.1 hc
  split at hc
  · cases hc
    exact .refl _
  · exact .moveEntry (hdef ▸ hidx) hc

/-- A closure is the writes of its deletes and of its rewrites. -/
theorem applyCascade {plan : Cascade} (hl : s.Listed tables)
    (h : applyCascade s tables plan = .ok s') : s.WrittenTo s' := by
  -- a definition that is listed is that of its table, in every state on the way
  have hfound : ∀ {t : String} {d : TableDef}, tables.find? (fun d => d.name = t) = some d →
      ∀ {s₁ : CatState}, s.WrittenTo s₁ →
        ∃ a, OrdMap.find a.def_.name s₁.tables = some a ∧ a.def_ = d := by
    intro t d hd s₁ hs
    have hname : d.name = t := by simpa using List.find?_some hd
    rw [(hl.same hs.sameDefs).find] at hd
    obtain ⟨a, ha, rfl⟩ := Option.map_eq_some_iff.1 hd
    exact ⟨a, hname ▸ ha, rfl⟩
  obtain ⟨s₁, hdel, hrew⟩ := Result.bind_eq_ok.1 h
  have hfirst : s.WrittenTo s₁ := by
    refine foldlM hdel (fun d _ s₂ s₃ hs hf => ?_)
    split at hf
    · cases hf
      exact .refl _
    · next def_ hdef =>
      obtain ⟨a, ha, rfl⟩ := hfound hdef hs
      exact deleteRowIndexed ha hf
  refine hfirst.trans (foldlM hrew (fun r _ s₂ s₃ hs hf => ?_))
  split at hf
  · cases hf
    exact .refl _
  · next def_ hdef =>
    obtain ⟨a, ha, rfl⟩ := hfound hdef (hfirst.trans hs)
    exact rewriteRowIndexed ha hf

section Statements

variable {env : Env} {fuel : Nat} {table : String}

/-- An insert is a write of its table. -/
theorem insert {input : List (List (String × Value))} {rows : List (List Value)} (hs : s.Sound)
    (h : insert env s table input = .ok (rows, s')) : s.WrittenTo s' := by
  obtain ⟨image, st, himage, hst, hapart, -, -⟩ := insert_wrote hs h
  obtain ⟨image', st', b, himage', hst', hb, hs'⟩ := insert_eq_ok h
  cases himage.symm.trans himage'
  cases hst.symm.trans hst'
  have hedited : image.EditedTo b := by
    refine .foldlM hb (fun r hr a c hdef hstep => ?_)
    obtain ⟨-, -, taken, hentries⟩ := hapart.rows r hr
    exact .applyStaged hdef.symm hentries hstep
  rw [hs']
  split
  · exact store himage hedited (some st.seq)
  · exact store himage hedited none

/-- An update is a write of its table and of those in its cascade. -/
theorem change {image : TableImage} {deltas : List RowDelta} {referential : Option Cascade}
    (hs : s.WellFormed) (h : Change fuel s table image deltas referential s') :
    s.WrittenTo s' := by
  obtain ⟨b, hb, happly⟩ := Result.bind_eq_ok.1 h.applied
  have hedited : image.EditedTo b := by
    refine .foldlM hb (fun d hd a c hdef hstep => ?_)
    obtain ⟨check, hmoves⟩ := (h.rows d hd).moves
    exact .applyDelta (hdef ▸ hmoves) hstep
  have hfirst : s.WrittenTo (s.store table b) := store h.found hedited none
  cases referential with
  | none =>
    cases happly
    exact hfirst
  | some plan => exact hfirst.trans (applyCascade (hs.listed.same hfirst.sameDefs) happly)

theorem statement {op : JobOp} (hs : s.Sound) (h : Statement env fuel s op s') :
    s.WrittenTo s' := by
  cases h with
  | insert h => exact insert hs h
  | change _ h => exact change hs.wellFormed h
  | removal _ _ h => exact applyCascade hs.wellFormed.listed h.applied
  | idle => exact .refl s

end Statements

end CatState.WrittenTo

/-- **A row job is writes.** What a committed row job makes of a state comes down to edits of the
trees of its tables. -/
theorem apply_writtenTo {envs : Nat → Env} {fuel : Nat} {s s' : CatState} {op : JobOp}
    {out : JobOut} (hs : s.Sound) (hop : op.isDefinition = false)
    (h : apply envs fuel s op = .ok (out, s')) : s.WrittenTo s' := by
  have hbatch : ∀ specs i counts s s', s.Sound → batch envs fuel i s specs = .ok (counts, s') →
      s.WrittenTo s' := by
    intro specs
    induction specs with
    | nil =>
      intro i counts s s' _ h
      cases h
      exact .refl s
    | cons spec specs ih =>
      intro i counts s s' hs h
      obtain ⟨⟨count, s₁⟩, hspec, h⟩ := Result.bind_eq_ok.1 h
      obtain ⟨⟨counts', s₂⟩, hrest, h⟩ := Result.bind_eq_ok.1 h
      cases h
      obtain ⟨out, hout⟩ := apply_job hspec
      have hs₁ : s₁.Sound :=
        sound_kept (C := Free) _ _ _ _ _ _ spec.job_ne_batch trivial hout hs
      have hdef : spec.job.isDefinition = false := by cases spec <;> rfl
      exact (CatState.WrittenTo.statement hs (apply_statement hdef spec.job_ne_batch hout)).trans
        (ih _ _ _ _ hs₁ hrest)
  by_cases hb : ∃ specs, op = .batch specs
  · obtain ⟨specs, rfl⟩ := hb
    obtain ⟨⟨counts, s₁⟩, h, hout⟩ := Result.bind_eq_ok.1 h
    cases hout
    exact hbatch specs 0 counts s _ hs h
  · have hne : ∀ specs, op ≠ .batch specs := fun specs he => hb ⟨specs, he⟩
    exact CatState.WrittenTo.statement hs (apply_statement hop hne h)

namespace TreeJob

/-- The bindings in the slots of a table are those of its image. -/
structure Bound (c : Contents) (table : String) (image : TableImage) : Prop where
  data : c (.root table) = some image.data
  index : ∀ name, c (.iroot table name) = OrdMap.find name image.indexes

section Bound

variable {es : List BTree.Entry} {f : Forest} {table : String} {image : TableImage} {c : Contents}

theorem slotHas_iff {k : StoreKey} {bindings : TreeContents} :
    SlotHas es f k bindings ↔ contentsIn (slotsOf es) f k = some bindings := by
  simp [SlotHas, contentsIn, Option.bind_eq_some_iff]

theorem ShowsTable.bound (h : ShowsTable es f table image) :
    Bound (contentsIn (slotsOf es) f) table image := by
  refine ⟨slotHas_iff.1 h.data, fun name => ?_⟩
  cases hfind : OrdMap.find name image.indexes with
  | none => rw [contentsIn, slotsOf_eq_none (h.noIndex name hfind), Option.bind_none]
  | some tree => exact slotHas_iff.1 (h.index name tree hfind)

/-- An edit of a table's trees is one of its image. -/
theorem Bound.edit (h : Bound c image.def_.name image) (edit : TreeEdit) :
    Bound (edit.on image.def_ c) image.def_.name (image.edit edit) := by
  cases edit with
  | row op =>
    refine ⟨?_, fun name => ?_⟩
    · rw [TreeEdit.on, editContents, Function.update_self, h.data]
      rfl
    · rw [TreeEdit.on, editContents, Function.update_of_ne (by simp), h.index]
      rfl
  | entry i op =>
    rw [TreeEdit.on, TableImage.edit]
    cases image.def_.indexes[i]? with
    | none => exact h
    | some idx =>
      simp only [editContents, h.index idx.name]
      cases hfind : OrdMap.find idx.name image.indexes with
      | none =>
        have hsame : Function.update c (.iroot image.def_.name idx.name) none = c := by
          rw [← hfind, ← h.index, Function.update_eq_self]
        rw [Option.map_none, hsame]
        exact h
      | some tree =>
        refine ⟨(Function.update_of_ne (by simp) ..).trans h.data, fun name => ?_⟩
        show _ = OrdMap.find name (OrdMap.insert idx.name (op.on tree) image.indexes)
        rw [OrdMap.find_insert]
        by_cases hname : idx.name = name
        · subst hname
          rw [Function.update_self, if_pos rfl, Option.map_some]
        · rw [Function.update_of_ne (by simpa using Ne.symm hname), if_neg hname, h.index]

/-- Edits keep a table bound to its contents. -/
theorem Bound.edits (h : Bound c image.def_.name image) (edits : List TreeEdit) :
    Bound (edits.foldl (TreeEdit.on image.def_) c) image.def_.name
      (edits.foldl TableImage.edit image) := by
  induction edits generalizing c image with
  | nil => exact h
  | cons edit edits ih =>
    have hnext := h.edit edit
    have hdef := image.edit_def edit
    rw [← hdef] at hnext
    have hrest := ih hnext
    rw [hdef] at hrest
    exact hrest

/-- The edits of a table leave the slots of the others as they are. -/
theorem edits_on_other {def_ : TableDef} {k : StoreKey} (hk : k.table ≠ def_.name)
    (edits : List TreeEdit) : edits.foldl (TreeEdit.on def_) c k = c k := by
  induction edits generalizing c with
  | nil => rfl
  | cons edit edits ih =>
    refine ih.trans ?_
    cases edit with
    | row op =>
      refine Function.update_of_ne ?_ ..
      rintro rfl
      exact hk rfl
    | entry i op =>
      rw [TreeEdit.on]
      cases def_.indexes[i]? with
      | none => rfl
      | some idx =>
        refine Function.update_of_ne ?_ ..
        rintro rfl
        exact hk rfl

end Bound

/-! ## States and their pages -/

/-- The tables and the sequences are those of the state. -/
structure RepresentsState (es : List BTree.Entry) (f : Forest) (s : CatState) : Prop where
  tables : Represents es f s.snapshot
  seqs : ∀ table, entryIn es (.seq table) = (OrdMap.find table s.seqs).map encodeSeq

/-- The entries of the definitions. -/
theorem mem_tblBand {es : List BTree.Entry} (hsorted : OrdMap.Sorted es)
    (hknown : ∀ e ∈ es, ∃ k : StoreKey, e.1 = k.bytes) {lo hi : Bytes}
    (hband : ∀ k : StoreKey, BTree.inBounds (some lo) (some hi) k.bytes = true ↔
      ∃ table, k = .tbl table) {e : BTree.Entry} :
    e ∈ es.filter (fun e => BTree.inBounds (some lo) (some hi) e.1) ↔
      ∃ table, e.1 = (StoreKey.tbl table).bytes ∧ entryIn es (.tbl table) = some e.2 := by
  rw [List.mem_filter]
  constructor
  · rintro ⟨he, hin⟩
    obtain ⟨k, hk⟩ := hknown e he
    rw [hk] at hin
    obtain ⟨table, rfl⟩ := (hband k).1 hin
    exact ⟨table, hk, (OrdMap.find_eq_some_iff hsorted).2 (hk ▸ he)⟩
  · rintro ⟨table, hk, hentry⟩
    have hmem := (OrdMap.find_eq_some_iff hsorted).1 hentry
    rw [← hk] at hmem
    exact ⟨hmem, hk ▸ (hband _).2 ⟨table, rfl⟩⟩

/-- The definitions are read off the entries of definitions. -/
theorem definitionsOf_congr {es es' : List BTree.Entry} {f f' : Forest} (h : Consistent es f)
    (h' : Consistent es' f')
    (hsame : ∀ table, entryIn es' (.tbl table) = entryIn es (.tbl table)) :
    definitionsOf es' = definitionsOf es := by
  obtain ⟨lo, hi, hband, hin⟩ := tblBand_spec
  have hfilter : es'.filter (fun e => BTree.inBounds (some lo) (some hi) e.1) =
      es.filter (fun e => BTree.inBounds (some lo) (some hi) e.1) := by
    refine OrdMap.Sorted.ext (h'.layout.sorted.sublist List.filter_sublist)
      (h.layout.sorted.sublist List.filter_sublist) (fun e => ?_)
    rw [mem_tblBand h'.layout.sorted h'.known hin, mem_tblBand h.layout.sorted h.known hin]
    simp only [hsame]
  rw [definitionsOf, definitionsOf, hband, Result.ok_bind, Result.ok_bind, hfilter]

section Reads

variable {s : CatState} {es : List BTree.Entry} {slots : Slots} {origin : Origin} {l : Ledger}
variable {table : String} {image : TableImage} {k : StoreKey} {bindings : TreeContents}

/-- The root stored for a slot leads to the tree with its bindings. -/
theorem ensures_treeOf {α : Type} {Q : α → Origin → Ledger → Prop} {f : Nat → StoreJob α}
    (hk : isTree k = true) (h : Layout es slots l.toForest)
    (hslot : SlotHas es l.toForest k bindings)
    (hf : ∀ r t, l.trees r = some t → t.entries = bindings → (f r).Ensures Q origin l) :
    (loadRootAt k.bytes >>= f).Ensures Q origin l := by
  obtain ⟨r, t, hr, ht, hes⟩ := hslot
  refine .bind (ensures_loadRootAt hk h fun r' hr' => ?_)
  cases hr.symm.trans hr'
  exact hf r t ht hes

theorem ensures_lookupIn (hk : isTree k = true) (h : Layout es slots l.toForest)
    (hslot : SlotHas es l.toForest k bindings) (key : Bytes) :
    (loadRootAt k.bytes >>= fun root => Job.lookup root key : StoreJob (Option Bytes)).Ensures
      (fun found _ l' => found = OrdMap.find key bindings ∧ l' = l) origin l := by
  refine ensures_treeOf hk h hslot fun r t ht hes => .lookup ht ?_
  rw [hes]
  exact ⟨rfl, rfl⟩

theorem ensures_scanIn (hk : isTree k = true) (h : Layout es slots l.toForest)
    (hslot : SlotHas es l.toForest k bindings) (lo hi : Option Bytes) :
    (loadRootAt k.bytes >>= fun root => Job.scan root lo hi : StoreJob (List BTree.Entry)).Ensures
      (fun found _ l' => found = bindings.filter (fun e => BTree.inBounds lo hi e.1) ∧ l' = l)
      origin l := by
  refine ensures_treeOf hk h hslot fun r t ht hes => .scan ht ?_
  rw [hes]
  exact ⟨rfl, rfl⟩

/-- What a write transaction looks up or scans in a tree of a table it finds in the image of the
table. -/
theorem RepresentsState.reads (h : RepresentsState es l.toForest s)
    (hl : Layout es slots l.toForest) (himage : OrdMap.find table s.tables = some image) :
    (∀ key, (loadRoot table >>= fun root => Job.lookup root key : StoreJob _).Ensures
      (fun found _ l' => found = OrdMap.find key image.data ∧ l' = l) origin l) ∧
    (∀ lo hi, (loadRoot table >>= fun root => Job.scan root lo hi : StoreJob _).Ensures
      (fun found _ l' => found = image.data.filter (fun e => BTree.inBounds lo hi e.1) ∧ l' = l)
      origin l) ∧
    ∀ index tree, OrdMap.find index image.indexes = some tree →
      (∀ key, (loadIroot table index >>= fun root => Job.lookup root key : StoreJob _).Ensures
        (fun found _ l' => found = OrdMap.find key tree ∧ l' = l) origin l) ∧
      ∀ lo hi, (loadIroot table index >>= fun root => Job.scan root lo hi : StoreJob _).Ensures
        (fun found _ l' => found = tree.filter (fun e => BTree.inBounds lo hi e.1) ∧ l' = l)
        origin l := by
  have hshows := h.tables.table table image himage
  have hroot : loadRoot table = loadRootAt (StoreKey.root table).bytes := by
    rw [loadRoot, rootKey_eq]
    rfl
  have hiroot : ∀ index, loadIroot table index = loadRootAt (StoreKey.iroot table index).bytes := by
    intro index
    rw [loadIroot, irootKey_eq]
    rfl
  refine ⟨fun key => ?_, fun lo hi => ?_, fun index tree htree => ⟨fun key => ?_, fun lo hi => ?_⟩⟩
  · rw [hroot]
    exact ensures_lookupIn rfl hl hshows.data key
  · rw [hroot]
    exact ensures_scanIn rfl hl hshows.data lo hi
  · rw [hiroot]
    exact ensures_lookupIn rfl hl (hshows.index index tree htree) key
  · rw [hiroot]
    exact ensures_scanIn rfl hl (hshows.index index tree htree) lo hi

end Reads

section Write

variable {s : CatState} {w : TableWrite} {def_ : TableDef} {es es' : List BTree.Entry}
variable {origin origin' : Origin} {l l' : Ledger}

/-- The table that was written to has the edits. -/
theorem ShowsTable.write {image : TableImage} (h : ShowsTable es l.toForest w.table image)
    (hdef : image.def_ = def_) (hw : Writes w def_ es origin l es' origin' l') :
    ShowsTable es' l'.toForest w.table (w.edits.foldl TableImage.edit image) := by
  subst hdef
  have hbound := h.bound
  rw [← hw.name] at hbound
  have hedits := hbound.edits w.edits
  rw [← hw.contents, hw.name] at hedits
  obtain ⟨bytes, hbytes, hdecode⟩ := h.definition
  refine ⟨⟨bytes, hw.rewritten.tbl.trans hbytes, ?_⟩, slotHas_iff.2 hedits.data,
    fun name tree htree => slotHas_iff.2 ((hedits.index name).trans htree), fun name hnone => ?_⟩
  · rw [TableImage.edits_def]
    exact hdecode
  · -- an index that is not there was not there before
    by_contra hentry
    have hbefore := (hw.rewritten.iroots name).1 hentry
    cases hfind : OrdMap.find name image.indexes with
    | none => exact hbefore (h.noIndex name hfind)
    | some tree =>
      have hsome := TableImage.edits_isSome image w.edits name
      rw [hnone, hfind] at hsome
      cases hsome

/-- A table that was not written to is the same. -/
theorem ShowsTable.other {table : String} {image : TableImage}
    (h : ShowsTable es l.toForest table image) (htable : table ≠ w.table)
    (hw : Writes w def_ es origin l es' origin' l') :
    ShowsTable es' l'.toForest table image := by
  have hsame : ∀ k : StoreKey, k.table = table → entryIn es' k = entryIn es k := fun k hk =>
    hw.rewritten.edited.same k (fun hk' => htable (hk.symm.trans hk'))
  have hslot : ∀ {k : StoreKey} {bindings}, k.table = table →
      SlotHas es l.toForest k bindings → SlotHas es' l'.toForest k bindings := by
    intro k bindings hk hslot
    rw [slotHas_iff] at hslot ⊢
    rw [hw.contents, edits_on_other (by rwa [hk, hw.name]), hslot]
  obtain ⟨bytes, hbytes, hdecode⟩ := h.definition
  exact ⟨⟨bytes, (hsame (.tbl table) rfl).trans hbytes, hdecode⟩, hslot rfl h.data,
    fun name tree htree => hslot rfl (h.index name tree htree),
    fun name hnone => (hsame (.iroot table name) rfl).trans (h.noIndex name hnone)⟩

/-- What is written to the trees of a table is written to the state. -/
theorem RepresentsState.write (h : RepresentsState es l.toForest s)
    (hs : OrdMap.Sorted s.tables) (hc : Consistent es l.toForest)
    (hw : Writes w def_ es origin l es' origin' l') :
    RepresentsState es' l'.toForest (s.write w) := by
  obtain ⟨bytes, hbytes, hdecode⟩ := hw.found
  obtain ⟨image, himage⟩ : ∃ image, OrdMap.find w.table s.tables = some image := by
    cases hfind : OrdMap.find w.table s.tables with
    | none =>
      rw [h.tables.noTable w.table hfind] at hbytes
      cases hbytes
    | some image => exact ⟨image, rfl⟩
  have hshows := h.tables.table w.table image himage
  obtain ⟨bytes', hbytes', hdecode'⟩ := hshows.definition
  cases hbytes.symm.trans hbytes'
  have hdef : image.def_ = def_ := Except.ok.inj (hdecode'.symm.trans hdecode)
  have htables := CatState.write_tables himage
  -- the catalog changes under the keys of this table and nowhere else
  have hother := hw.rewritten.edited.same
  refine ⟨⟨hw.layout.catalog, ?_, fun table image' hfind => ?_, fun table hfind => ?_⟩,
    fun table => ?_⟩
  -- no definition changes, so the tables are listed as before
  · have htbl : ∀ table, entryIn es' (.tbl table) = entryIn es (.tbl table) := by
      intro table
      by_cases htable : table = w.table
      · rw [htable, hw.rewritten.tbl]
      · exact hother (.tbl table) htable
    rw [definitionsOf_congr hc (hw.consistent hc) htbl, h.tables.definitions]
    show Except.ok (s.tables.map _) = Except.ok ((s.write w).tables.map _)
    rw [htables, OrdMap.map_insert_of_find hs himage (TableImage.edits_def image w.edits)]
  · change OrdMap.find table (s.write w).tables = _ at hfind
    rw [htables, OrdMap.find_insert] at hfind
    split at hfind
    · next htable =>
      cases hfind
      exact htable ▸ hshows.write hdef hw
    · next htable => exact (h.tables.table table image' hfind).other (Ne.symm htable) hw
  · change OrdMap.find table (s.write w).tables = _ at hfind
    rw [htables, OrdMap.find_insert] at hfind
    split at hfind
    · cases hfind
    · next htable => rw [hother (.tbl table) (Ne.symm htable), h.tables.noTable table hfind]
  · rw [CatState.find_write_seqs himage]
    split
    · next htable =>
      subst htable
      rw [hw.seq, h.seqs]
      cases w.seq <;> rfl
    · next htable => rw [hother (.seq table) (Ne.symm htable), h.seqs]

/-- The writes of a row job. -/
theorem ensures_writeRows {ws : List TableWrite} (h : RepresentsState es l.toForest s)
    (hs : OrdMap.Sorted s.tables) (hc : Consistent es l.toForest) :
    (writeRows ws).Ensures (fun _ _ l' => ∃ es',
      RepresentsState es' l'.toForest (ws.foldl CatState.write s)) origin l := by
  induction ws generalizing s es origin l with
  | nil => exact .ret ⟨es, h⟩
  | cons w ws ih =>
    refine .bind ((writeTable_writes hc).mono ?_)
    rintro - o₁ l₁ ⟨def_, es₁, hw⟩
    exact ih (h.write hs hc hw) (CatState.write_sorted hs) (hw.consistent hc)

end Write

end TreeJob

/-! ## Writes on the pages -/

/-- The pages under a root hold the tables and the sequences of a state. -/
def StoresState (p : Pager BTree.Node) (root : Nat) (s : CatState) : Prop :=
  p.Ok ∧ ∃ ts f es, f.root = root ∧ Holding p ts f.trees ∧ RepresentsState es f s

section Pages

variable {p : Pager BTree.Node} {ts ts' : List BTree.PageTree} {f f' : Forest}
variable {es es' : List BTree.Entry} {s : CatState} {root : Nat}

theorem StoresState.tables (h : StoresState p root s) : StoresTables p root s.snapshot := by
  obtain ⟨hp, ts, f, es, hroot, hheld, hrep⟩ := h
  exact ⟨hp, ts, f, es, hroot, hheld, hrep.tables⟩

/-- Pages hold one tree at a root. -/
theorem entries_unique (hp : p.Ok) (h : Holding p ts f.trees) (h' : Holding p ts' f'.trees)
    {r : Nat} {t t' : TreeState} (ht : f.trees r = some t) (ht' : f'.trees r = some t') :
    t.entries = t'.entries := by
  obtain ⟨p₁, hrun, -⟩ := h.range_eq hp (r := r) (by simp [ht])
  obtain ⟨p₂, hrun', -⟩ := h'.range_eq hp (r := r) (by simp [ht'])
  rw [ht, Option.map_some, Option.getD_some] at hrun
  rw [ht', Option.map_some, Option.getD_some] at hrun'
  exact (EStateM.Result.ok.inj (hrun.symm.trans hrun')).1

/-- What one reading of the pages shows, another does whose trees are those of a catalog. -/
theorem TreeJob.RepresentsState.transfer (h : RepresentsState es f s) (hp : p.Ok)
    (hheld : Holding p ts f.trees) (hheld' : Holding p ts' f'.trees) (hroot : f'.root = f.root)
    (hc : Consistent es' f') : es' = es ∧ RepresentsState es f' s := by
  obtain ⟨t, ht, hes⟩ := h.tables.catalog
  obtain ⟨t', ht', hes'⟩ := hc.layout.catalog
  have hsame : es' = es := by
    rw [← hes, ← hes']
    exact entries_unique hp hheld' hheld ht' (hroot ▸ ht)
  subst hsame
  have hslot : ∀ {k bindings}, SlotHas es' f k bindings → SlotHas es' f' k bindings := by
    rintro k bindings ⟨r, tree, hr, htree, hbindings⟩
    obtain ⟨tree', htree'⟩ := hc.layout.exists_tree hr
    exact ⟨r, tree', hr, htree',
      (entries_unique hp hheld' hheld htree' htree).trans hbindings⟩
  refine ⟨rfl, ⟨hc.layout.catalog, h.tables.definitions, fun table image himage => ?_,
    h.tables.noTable⟩, h.seqs⟩
  have hshows := h.tables.table table image himage
  exact ⟨hshows.definition, hslot hshows.data, fun name tree htree =>
    hslot (hshows.index name tree htree), hshows.noIndex⟩

end Pages

section Between

variable {st st' : catalogClient.State} {w w' : Writer} {freed freed' : List Nat} {s : CatState}
variable {outcomes : List (Except (TxnError CatalogError) Unit)}

/-- The writes of a row job that commits on pages that hold a state. -/
theorem writeRows_stores {writes : List TableWrite} (hbetween : catalogClient.Between st w freed)
    (hstores : StoresState st.pager w.root s) (hs : OrdMap.Sorted s.tables)
    (hrun : Prog.Reaches (WriterOp.exec catalogClient.name) ReaderStep
      (applyJobs w freed outcomes [catalogClient.apply (.writeRows writes)], st)
      (.ret (.ok (w', freed', outcomes ++ [.ok ()])), st')) :
    StoresState st'.pager w'.root (writes.foldl CatState.write s) := by
  obtain ⟨hp, ts, f, es, hroot, hheld, hrep⟩ := hstores
  obtain ⟨f', origin, l, fr, ⟨⟨es', hc⟩, hroot'⟩, hyields, hleft, -, hp', heffect⟩ :=
    hbetween.effect hrun
  obtain ⟨ts', hfound⟩ := heffect.found
  obtain ⟨rfl, hrep'⟩ := hrep.transfer hp hheld hfound (hroot'.trans hroot.symm) hc
  have hstart : Consistent es' (Ledger.start f').toForest := hc
  obtain ⟨es'', hrep''⟩ :=
    hyields _ (ensures_writeRows (l := Ledger.start f') hrep' hs hstart) () origin rfl
  obtain ⟨ts'', hheld''⟩ := heffect.left
  exact ⟨hp', ts'', l.toForest, es'', hleft.symm, hheld'', hrep''⟩

/-- **Row jobs on the pages.** A row job that commits in a run comes down to some writes; when
the write transaction that makes them commits on pages that hold the state before the job, the
pages it leaves hold the state after it. -/
theorem rowJob_stores {ops : List JobOp} {s' : CatState} {op : JobOp} (h : Run ops s)
    (hop : op.isDefinition = false) (hcommits : Commits s op s') :
    ∃ writes : List TableWrite, ∀ {st st' : catalogClient.State} {w w' : Writer}
      {freed freed' : List Nat} {outcomes : List (Except (TxnError CatalogError) Unit)},
      catalogClient.Between st w freed → StoresState st.pager w.root s →
      Prog.Reaches (WriterOp.exec catalogClient.name) ReaderStep
        (applyJobs w freed outcomes [catalogClient.apply (.writeRows writes)], st)
        (.ret (.ok (w', freed', outcomes ++ [.ok ()])), st') →
      StoresState st'.pager w'.root s' := by
  obtain ⟨envs, fuel, out, happly⟩ := hcommits
  obtain ⟨writes, rfl⟩ := apply_writtenTo h.sound hop happly
  exact ⟨writes, fun hbetween hstores hrun =>
    writeRows_stores hbetween hstores h.sound.wellFormed.sorted hrun⟩

end Between

end Edb.Catalog
