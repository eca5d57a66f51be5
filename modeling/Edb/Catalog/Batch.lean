import Edb.Catalog.Sequence

/-!
# One statement or many

An insert of many rows probes the state before the statement and what it has staged; a batch of
single inserts probes the state the rows before have left. Both write the same rows, entries and
sequence, and accept the same lists, unless a row refers through a unique index of its own table
to a key that only an earlier row of the list supplies (`insert_same_iff`).
-/

namespace Edb.Catalog

open Edb.Types Edb.Lib

/-- The readings of one row, as the readings of a statement of its own. -/
def Env.row (env : Env) (i : Nat) : Env := ⟨fun _ ci => env.now i ci, fun _ ci => env.uuid i ci⟩

/-- One insert for each row. -/
def singles (table : String) (input : List (List (String × Value))) : List WriteSpec :=
  input.map (fun provided => .insert table [provided])

/-- An insert commits exactly when the batch of its rows does, and leaves the same state. -/
def SameAsSequence (env : Env) (fuel : Nat) (s : CatState) (table : String)
    (input : List (List (String × Value))) : Prop :=
  ∀ s', (∃ out, insert env s table input = .ok (out, s')) ↔
    ∃ counts, batch env.row fuel 0 s (singles table input) = .ok (counts, s')

/-! ## Rows in turn -/

/-- The unique keys a staged row takes. -/
def StagedRow.takes (r : StagedRow) : List (String × Bytes) :=
  (r.entries.filter (fun e => e.1.unique)).map (fun e => (e.1.name, e.2.key))

/-- One more row is staged. -/
def Staged.push (st : Staged) (r : StagedRow) (seq : Int64) : Staged :=
  ⟨st.rows ++ [r], st.unique ++ r.takes, seq⟩

@[simp] theorem Staged.push_rows (st : Staged) (r : StagedRow) (seq : Int64) :
    (st.push r seq).rows = st.rows ++ [r] := rfl

@[simp] theorem Staged.push_seq (st : Staged) (r : StagedRow) (seq : Int64) :
    (st.push r seq).seq = seq := rfl

theorem Staged.push_length (st : Staged) (r : StagedRow) (seq : Int64) :
    (st.push r seq).rows.length = st.rows.length + 1 := by
  rw [Staged.push_rows, List.length_append, List.length_singleton]

@[simp] theorem Staged.push_pks (st : Staged) (r : StagedRow) (seq : Int64) :
    (st.push r seq).pks = st.pks ++ [r.pkKey] := by
  rw [Staged.pks, Staged.push_rows, List.map_append]
  rfl

/-- A staged row is the parent a foreign key of its own table refers to. -/
def Supplied (d : TableDef) (st : Staged) (fk : ForeignKey) (vals : List Value) : Prop :=
  fk.parent = d.name ∧ ∃ key, encodeKey vals = .ok key ∧
    ((d.pk = fk.parentColumns ∧ key ∈ st.pks) ∨
      (d.pk ≠ fk.parentColumns ∧ ∃ idx, referencedIndex d fk = .ok idx ∧
        (idx.name, key) ∈ st.unique))

/-- What a row needs to be written after the staged ones: that it is built and passes its own
checks, that its parents are stored or staged, and that its keys are neither. -/
structure Admitted (env : Env) (s : CatState) (image : TableImage) (st : Staged)
    (provided : List (String × Value)) (r : StagedRow) (seq : Int64) : Prop where
  built : buildRow env st.rows.length image.def_ provided st.seq = .ok (r.row, seq)
  checked : runChecks image.def_ r.row = .ok ()
  references : ∀ fk ∈ image.def_.foreignKeys, ∀ vals, fkValues image.def_ fk r.row = some vals →
    parentKeyExists s fk vals = .ok true ∨ Supplied image.def_ st fk vals
  key : pkKeyOf image.def_ r.row = .ok r.pkKey
  fresh : r.pkKey ∉ st.pks ∧ OrdMap.find r.pkKey image.data = none
  entries : stageEntries image r.row r.pkKey st.unique image.def_.indexes = .ok r.entries
  encoded : encodeRow r.row = .ok r.bytes
  fits : checkFits r.pkKey r.bytes = .ok ()

/-- Every row of a list can be written after the ones before it. -/
inductive InTurn (env : Env) (s : CatState) (image : TableImage) :
    Staged → List (List (String × Value)) → Staged → Prop
  | nil {st : Staged} : InTurn env s image st [] st
  | cons {st st' : Staged} {provided : List (String × Value)} {r : StagedRow} {seq : Int64}
      {rest : List (List (String × Value))} (h : Admitted env s image st provided r seq)
      (hrest : InTurn env s image (st.push r seq) rest st') :
      InTurn env s image st (provided :: rest) st'

/-- A row refers, through a unique index of its own table, to a key that another row takes. -/
def StagedRow.WaitsFor (d : TableDef) (r earlier : StagedRow) : Prop :=
  ∃ fk ∈ d.foreignKeys, fk.parent = d.name ∧ d.pk ≠ fk.parentColumns ∧
    ∃ vals key idx, fkValues d fk r.row = some vals ∧ encodeKey vals = .ok key ∧
      referencedIndex d fk = .ok idx ∧ (idx.name, key) ∈ earlier.takes

section Turn

variable {env : Env} {s : CatState} {image : TableImage} {st st' : Staged}

/-- What a row is admitted as is determined by the state and the rows staged before it. -/
theorem Admitted.unique {provided : List (String × Value)} {r r' : StagedRow} {seq seq' : Int64}
    (h : Admitted env s image st provided r seq) (h' : Admitted env s image st provided r' seq') :
    r = r' ∧ seq = seq' := by
  obtain ⟨pkKey, bytes, entries, row⟩ := r
  obtain ⟨pkKey', bytes', entries', row'⟩ := r'
  cases h.built.symm.trans h'.built
  cases h.key.symm.trans h'.key
  cases h.entries.symm.trans h'.entries
  cases h.encoded.symm.trans h'.encoded
  exact ⟨rfl, rfl⟩

/-- So is what the rows of a list are staged as, one after another. -/
theorem InTurn.unique {input : List (List (String × Value))} {st₁ st₂ : Staged}
    (h₁ : InTurn env s image st input st₁) (h₂ : InTurn env s image st input st₂) : st₁ = st₂ := by
  induction h₁ with
  | nil =>
    cases h₂
    rfl
  | cons h _ ih =>
    cases h₂ with
    | cons h' hrest =>
      obtain ⟨rfl, rfl⟩ := h.unique h'
      exact ih hrest

/-- The rows staged before stay in front. -/
theorem InTurn.rows_prefix {input : List (List (String × Value))}
    (h : InTurn env s image st input st') : st.rows <+: st'.rows := by
  induction h with
  | nil => exact List.prefix_refl _
  | cons _ _ ih => exact (List.prefix_append _ _).trans ih

end Turn

/-! ## Building a row -/

section Built

variable {env : Env} {d : TableDef}

/-- A row reads its own clock, wherever in a statement it stands. -/
theorem buildCells_row (env : Env) (i : Nat) (d : TableDef) (cells : List (Option Value)) (ci : Nat)
    (cols : List ColumnDef) (seq : Int64) :
    buildCells (env.row i) 0 d cells ci cols seq = buildCells env i d cells ci cols seq := by
  induction cols generalizing ci seq with
  | nil => rfl
  | cons col cols ih =>
    have hfill : fill (env.row i) 0 ci col (cells[ci]?.getD none) seq =
        fill env i ci col (cells[ci]?.getD none) seq := rfl
    rw [buildCells, buildCells, hfill]
    dsimp only
    rw [ih]

theorem buildRow_row (env : Env) (i : Nat) (d : TableDef) (provided : List (String × Value))
    (seq : Int64) : buildRow (env.row i) 0 d provided seq = buildRow env i d provided seq := by
  rw [buildRow, buildRow]
  simp only [buildCells_row]

/-- Only an auto-increment column moves the sequence. -/
theorem fill_seq_kept {ordinal ci : Nat} {col : ColumnDef} (h : col.autoIncrement = false)
    (cell : Option Value) (seq : Int64) : (fill env ordinal ci col cell seq).2 = seq := by
  cases cell with
  | some v =>
    show advance col v seq = seq
    unfold advance
    rw [h, if_neg Bool.false_ne_true]
  | none =>
    show (generate env ordinal ci col seq).2 = seq
    rw [generate, h, if_neg Bool.false_ne_true]
    split
    · rfl
    · split
      · rfl
      · split <;> rfl

/-- Without an auto-increment column, building a row leaves the sequence. -/
theorem buildCells_seq_kept {ordinal ci : Nat} {cells : List (Option Value)}
    {cols : List ColumnDef} {row : List Value} {seq seq' : Int64}
    (hno : ∀ col ∈ cols, col.autoIncrement = false)
    (h : buildCells env ordinal d cells ci cols seq = .ok (row, seq')) : seq' = seq := by
  induction cols generalizing ci seq row with
  | nil =>
    cases h
    rfl
  | cons col cols ih =>
    obtain ⟨_, -, h⟩ := Result.bind_eq_ok.1 h
    obtain ⟨⟨rest, seq₂⟩, hrest, h⟩ := Result.bind_eq_ok.1 h
    cases h
    rw [ih (fun c hc => hno c (List.mem_cons_of_mem _ hc)) hrest]
    exact fill_seq_kept (hno col List.mem_cons_self) _ _

theorem buildRow_seq_kept {ordinal : Nat} {provided : List (String × Value)} {row : List Value}
    {seq seq' : Int64} (hno : d.columns.any (fun c => c.autoIncrement) = false)
    (h : buildRow env ordinal d provided seq = .ok (row, seq')) : seq' = seq := by
  obtain ⟨cells, -, h⟩ := Result.bind_eq_ok.1 h
  apply buildCells_seq_kept _ h
  simpa using hno

end Built

/-! ## Staging a row -/

section Stage

variable {env : Env} {s : CatState} {image : TableImage} {st st' : Staged}

/-- A row is staged exactly when it passes every check. -/
theorem stageRow_iff {provided : List (String × Value)} :
    stageRow env s image st provided = .ok st' ↔ ∃ r seq,
      RowStaged env s image st provided r seq ∧ checkFits r.pkKey r.bytes = .ok () ∧
        st' = st.push r seq := by
  constructor
  · intro h
    obtain ⟨⟨row, seq⟩, hrow, h⟩ := Result.bind_eq_ok.1 h
    obtain ⟨⟨⟩, hchecks, h⟩ := Result.bind_eq_ok.1 h
    obtain ⟨⟨⟩, hfks, h⟩ := Result.bind_eq_ok.1 h
    obtain ⟨pkKey, hkey, h⟩ := Result.bind_eq_ok.1 h
    obtain ⟨⟨⟩, hfresh, h⟩ := Result.bind_eq_ok.1 h
    obtain ⟨entries, hentries, h⟩ := Result.bind_eq_ok.1 h
    obtain ⟨bytes, hbytes, h⟩ := Result.bind_eq_ok.1 h
    obtain ⟨⟨⟩, hfits, h⟩ := Result.bind_eq_ok.1 h
    cases h
    simp only [rej_eq_ok, ofType_eq_ok, require_eq_ok] at hrow hchecks hkey hfresh hbytes
    exact ⟨⟨pkKey, bytes, entries, row⟩, seq,
      ⟨hrow, hchecks, hfks, hkey, by simpa using hfresh, hentries, hbytes⟩, hfits, rfl⟩
  · rintro ⟨r, seq, h, hfits, rfl⟩
    have hfresh :
        (!(st.pks.contains r.pkKey || (OrdMap.find r.pkKey image.data).isSome)) = true := by
      simpa using h.fresh
    refine Result.bind_eq_ok.2 ⟨(r.row, seq), rej_eq_ok.2 h.built, ?_⟩
    refine Result.bind_eq_ok.2 ⟨(), rej_eq_ok.2 h.checked, ?_⟩
    refine Result.bind_eq_ok.2 ⟨(), h.references, ?_⟩
    refine Result.bind_eq_ok.2 ⟨r.pkKey, rej_eq_ok.2 h.key, ?_⟩
    refine Result.bind_eq_ok.2 ⟨(), rej_eq_ok.2 (require_eq_ok.2 hfresh), ?_⟩
    refine Result.bind_eq_ok.2 ⟨r.entries, h.entries, ?_⟩
    refine Result.bind_eq_ok.2 ⟨r.bytes, rej_eq_ok.2 (ofType_eq_ok.2 h.encoded), ?_⟩
    exact Result.bind_eq_ok.2 ⟨(), hfits, rfl⟩

/-- A parent is found by its primary key, or through the referenced index. -/
theorem parentKeyExists_eq_true {parent : TableImage} {fk : ForeignKey} {vals : List Value}
    (hparent : OrdMap.find fk.parent s.tables = some parent) :
    parentKeyExists s fk vals = .ok true ↔ ∃ key, encodeKey vals = .ok key ∧
      ((parent.def_.pk = fk.parentColumns ∧ (OrdMap.find key parent.data).isSome) ∨
        (parent.def_.pk ≠ fk.parentColumns ∧ ∃ idx tree,
          referencedIndex parent.def_ fk = .ok idx ∧
          OrdMap.find idx.name parent.indexes = some tree ∧ (OrdMap.find key tree).isSome)) := by
  rw [parentKeyExists, CatState.load_eq_ok.2 hparent, Result.ok_bind]
  constructor
  · intro h
    split at h
    · next hpk =>
      obtain ⟨key, hkey, h⟩ := Result.bind_eq_ok.1 h
      exact ⟨key, by simpa using hkey, .inl ⟨hpk, Except.ok.inj h⟩⟩
    · next hpk =>
      obtain ⟨idx, hidx, h⟩ := Result.bind_eq_ok.1 h
      obtain ⟨tree, htree, h⟩ := Result.bind_eq_ok.1 h
      obtain ⟨key, hkey, h⟩ := Result.bind_eq_ok.1 h
      exact ⟨key, by simpa using hkey, .inr ⟨hpk, idx, tree, rej_eq_ok.1 hidx,
        TableImage.indexTree_eq_ok.1 htree, Except.ok.inj h⟩⟩
  · rintro ⟨key, hkey, ⟨hpk, hsome⟩ | ⟨hpk, idx, tree, hidx, htree, hsome⟩⟩
    · rw [if_pos hpk, hkey]
      exact congrArg Except.ok hsome
    · rw [if_neg hpk, hidx]
      show (parent.indexTree idx.name >>= _) = _
      rw [TableImage.indexTree_eq_ok.2 htree, hkey]
      exact congrArg Except.ok hsome

/-- A parent is only found by a key that can be encoded. -/
theorem parentKeyExists_encodes {fk : ForeignKey} {vals : List Value}
    (h : parentKeyExists s fk vals = .ok true) : ∃ key, encodeKey vals = .ok key := by
  obtain ⟨parent, hparent, -⟩ := Result.bind_eq_ok.1 h
  obtain ⟨key, hkey, -⟩ := (parentKeyExists_eq_true (CatState.load_eq_ok.1 hparent)).1 h
  exact ⟨key, hkey⟩

theorem referencedIndex_eq_ok {d : TableDef} {fk : ForeignKey} {idx : IndexDef}
    (h : referencedIndex d fk = .ok idx) : idx ∈ d.indexes ∧ idx.unique = true := by
  have hfind := okOr_eq_ok.1 h
  have hcond := List.find?_some hfind
  simp only [Bool.and_eq_true] at hcond
  exact ⟨List.mem_of_find?_eq_some hfind, hcond.1⟩

/-- The check of one foreign key: the parent is stored, or is a staged row found by its
primary key. -/
theorem checkInsertFk_eq_ok {d : TableDef} {row : List Value} {staged : List Bytes}
    {fk : ForeignKey} :
    checkInsertFk s d row staged fk = .ok () ↔ ∀ vals, fkValues d fk row = some vals →
      parentKeyExists s fk vals = .ok true ∨ (fk.parent = d.name ∧ fk.parentColumns = d.pk ∧
        ∃ key, encodeKey vals = .ok key ∧ key ∈ staged) := by
  cases hvals : fkValues d fk row with
  | none =>
    rw [checkInsertFk, hvals]
    simp
  | some vals =>
    -- outside the self-reference the code asks for a stored parent and for nothing else
    have hthere : (do
        let there ← parentKeyExists s fk vals
        rej (require there (.foreignKeyViolation d.name fk.name))) = .ok () ↔
          parentKeyExists s fk vals = .ok true := by
      rw [Result.bind_eq_ok]
      constructor
      · rintro ⟨there, h, hreq⟩
        simp only [rej_eq_ok, require_eq_ok] at hreq
        rw [h, hreq]
      · intro h
        exact ⟨true, h, rfl⟩
    have hvals' : (∀ vals', some vals = some vals' → parentKeyExists s fk vals' = .ok true ∨
        (fk.parent = d.name ∧ fk.parentColumns = d.pk ∧
          ∃ key, encodeKey vals' = .ok key ∧ key ∈ staged)) ↔
        (parentKeyExists s fk vals = .ok true ∨ (fk.parent = d.name ∧ fk.parentColumns = d.pk ∧
          ∃ key, encodeKey vals = .ok key ∧ key ∈ staged)) := by
      constructor
      · intro h
        exact h vals rfl
      · rintro h _ ⟨⟩
        exact h
    rw [hvals', checkInsertFk, hvals]
    dsimp only
    by_cases hself : fk.parent = d.name ∧ fk.parentColumns = d.pk
    · cases hkey : encodeKey vals with
      | error e =>
        -- a key that does not encode names no stored row either, so both sides fail
        have hnone : ¬ parentKeyExists s fk vals = .ok true := by
          intro h
          obtain ⟨key, hkey'⟩ := parentKeyExists_encodes h
          rw [hkey] at hkey'
          cases hkey'
        simp [hself, hnone, rej, ofType]
      | ok key =>
        by_cases hmem : key ∈ staged
        · simp [hself, hmem, rej, ofType]
        · simp only [hself, decide_true, Bool.and_self, if_true]
          simpa [hmem, rej, ofType, hkey] using hthere
    · have hand : ¬ (fk.parent = d.name ∧ fk.parentColumns = d.pk ∧
          ∃ key, encodeKey vals = .ok key ∧ key ∈ staged) := fun h => hself ⟨h.1, h.2.1⟩
      simpa [hself, hand] using hthere

end Stage

/-! ## Halfway through a statement -/

/-- The state that rows and a sequence leave of a state. -/
def after (s : CatState) (table : String) (a : TableImage) (seq₀ seq : Int64) : CatState :=
  if seq ≠ seq₀ then (s.store table a).storeSeq table seq else s.store table a

/-- An image that holds what was stored before a statement and what its staged rows bring. -/
structure Midway (image : TableImage) (seq₀ : Int64) (st : Staged) (a : TableImage) : Prop where
  applied : st.rows.foldlM applyStaged image = .ok a
  seq_le : seq₀ ≤ st.seq
  seq_kept : image.def_.columns.any (fun c => c.autoIncrement) = false → st.seq = seq₀
  taken : st.unique = st.rows.flatMap StagedRow.takes
  fresh : ∀ p ∈ st.unique, ∀ tree, OrdMap.find p.1 image.indexes = some tree →
    OrdMap.find p.2 tree = none
  def_eq : a.def_ = image.def_
  rows : ∀ k, (OrdMap.find k a.data).isSome ↔ (OrdMap.find k image.data).isSome ∨ k ∈ st.pks
  trees : ∀ idx ∈ image.def_.indexes, ∃ tree tree', OrdMap.find idx.name image.indexes = some tree ∧
    OrdMap.find idx.name a.indexes = some tree' ∧ (idx.unique = true → ∀ key,
      (OrdMap.find key tree').isSome ↔ (OrdMap.find key tree).isSome ∨ (idx.name, key) ∈ st.unique)

/-! ### Entries -/

section Entries

variable {image a b : TableImage} {st : Staged}

/-- An entry of a unique index has a key that is neither stored nor staged. -/
def NewKey (image : TableImage) (taken : List (String × Bytes)) (idx : IndexDef) (e : Entry) :
    Prop :=
  idx.unique = true → ∃ tree, OrdMap.find idx.name image.indexes = some tree ∧
    OrdMap.find e.key tree = none ∧ (idx.name, e.key) ∉ taken

/-- One index: a row without an entry is passed over, another's entry is new and fits. -/
theorem stageEntries_cons {row : List Value} {pkKey : Bytes} {taken : List (String × Bytes)}
    {idx : IndexDef} {idxs : List IndexDef} {entries : List (IndexDef × Entry)} :
    stageEntries image row pkKey taken (idx :: idxs) = .ok entries ↔
      (entryFor image.def_ idx row pkKey = .ok none ∧
        stageEntries image row pkKey taken idxs = .ok entries) ∨
      ∃ e rest, entryFor image.def_ idx row pkKey = .ok (some e) ∧ NewKey image taken idx e ∧
        checkFits e.key e.value = .ok () ∧ stageEntries image row pkKey taken idxs = .ok rest ∧
        entries = (idx, e) :: rest := by
  rw [stageEntries]
  cases entryFor image.def_ idx row pkKey with
  | error err => simp
  | ok e? =>
    cases e? with
    | none => simp
    | some e =>
      have hrest : (do
          checkFits e.key e.value
          let rest ← stageEntries image row pkKey taken idxs
          pure ((idx, e) :: rest)) = .ok entries ↔ checkFits e.key e.value = .ok () ∧
            ∃ rest, stageEntries image row pkKey taken idxs = .ok rest ∧
              entries = (idx, e) :: rest := by
        constructor
        · intro h
          obtain ⟨⟨⟩, hfits, h⟩ := Result.bind_eq_ok.1 h
          obtain ⟨rest, hrest, h⟩ := Result.bind_eq_ok.1 h
          cases h
          exact ⟨hfits, rest, hrest, rfl⟩
        · rintro ⟨hfits, rest, hrest, rfl⟩
          exact Result.bind_eq_ok.2 ⟨(), hfits, Result.bind_eq_ok.2 ⟨rest, hrest, rfl⟩⟩
      have hgoal : ((Except.ok (some e) : JobResult (Option Entry)) = .ok none ∧
          stageEntries image row pkKey taken idxs = .ok entries ∨
          ∃ e' rest, (Except.ok (some e) : JobResult (Option Entry)) = .ok (some e') ∧
            NewKey image taken idx e' ∧ checkFits e'.key e'.value = .ok () ∧
            stageEntries image row pkKey taken idxs = .ok rest ∧ entries = (idx, e') :: rest) ↔
          NewKey image taken idx e ∧ checkFits e.key e.value = .ok () ∧
            ∃ rest, stageEntries image row pkKey taken idxs = .ok rest ∧
              entries = (idx, e) :: rest := by
        simp
      -- the entry itself is settled: what is left is the uniqueness test in front of it
      rw [hgoal, ← hrest, Result.ok_bind]
      dsimp only
      by_cases hu : idx.unique = true
      · rw [if_pos hu]
        cases htree : OrdMap.find idx.name image.indexes with
        | none =>
          -- a unique index without a tree can hold no new key, and the code fails on it too
          have hnew : ¬ NewKey image taken idx e := by
            intro h
            obtain ⟨tree, htree', -⟩ := h hu
            rw [htree] at htree'
            cases htree'
          simp [TableImage.indexTree, htree, hnew, okOr, rej]
        | some tree =>
          rw [TableImage.indexTree_eq_ok.2 htree, Result.ok_bind]
          -- a taken key is one of the tree or one an earlier row of the batch has staged
          have hnew : NewKey image taken idx e ↔
              ¬ ((OrdMap.find e.key tree).isSome || taken.contains (idx.name, e.key)) = true := by
            constructor
            · intro h
              obtain ⟨tree', htree', hnone, hnot⟩ := h hu
              cases htree.symm.trans htree'
              simp [hnone, hnot]
            · intro h _
              simp only [Bool.or_eq_true, not_or] at h
              exact ⟨tree, htree, by simpa using h.1, by simpa using h.2⟩
          rw [hnew]
          by_cases hhit :
              ((OrdMap.find e.key tree).isSome || taken.contains (idx.name, e.key)) = true
          · rw [if_pos hhit]
            exact ⟨(fun h => by cases h), fun h => absurd hhit h.1⟩
          · rw [if_neg hhit]
            exact ⟨fun h => ⟨hhit, h⟩, And.right⟩
      -- an index that is not unique accepts any key
      · have hnew : NewKey image taken idx e := fun h => absurd h hu
        rw [if_neg hu]
        simp [hnew]

/-- What is known of staged entries: they fit, and the unique ones are new. -/
theorem stageEntries_eq_ok {row : List Value} {pkKey : Bytes} {taken : List (String × Bytes)}
    {idxs : List IndexDef} {entries : List (IndexDef × Entry)}
    (h : stageEntries image row pkKey taken idxs = .ok entries) : ∀ e ∈ entries, e.1 ∈ idxs ∧
      checkFits e.2.key e.2.value = .ok () ∧ NewKey image taken e.1 e.2 := by
  induction idxs generalizing entries with
  | nil =>
    cases h
    intro e he
    cases he
  | cons idx idxs ih =>
    rcases stageEntries_cons.1 h with ⟨-, h⟩ | ⟨e, rest, -, hnew, hfits, hrest, rfl⟩
    · intro e he
      obtain ⟨hmem, hrest⟩ := ih h e he
      exact ⟨List.mem_cons_of_mem _ hmem, hrest⟩
    · intro e' he'
      rcases List.mem_cons.1 he' with rfl | he'
      · exact ⟨List.mem_cons_self, hfits, hnew⟩
      · obtain ⟨hmem, hlater⟩ := ih hrest e' he'
        exact ⟨List.mem_cons_of_mem _ hmem, hlater⟩

/-- Inserting entries that fit into trees there are: the keys of each tree afterwards. -/
theorem insertEntries_total {entries : List (IndexDef × Entry)}
    (htrees : ∀ e ∈ entries, (OrdMap.find e.1.name a.indexes).isSome)
    (hfits : ∀ e ∈ entries, checkFits e.2.key e.2.value = .ok ()) :
    ∃ b, entries.foldlM (fun image e => insertEntry image e.1 (some e.2)) a = .ok b ∧
      a.SameRows b ∧ ∀ n tree, OrdMap.find n a.indexes = some tree →
        ∃ tree', OrdMap.find n b.indexes = some tree' ∧ ∀ key, (OrdMap.find key tree').isSome ↔
          (OrdMap.find key tree).isSome ∨ ∃ e ∈ entries, e.1.name = n ∧ e.2.key = key := by
  induction entries generalizing a with
  | nil =>
    refine ⟨a, rfl, .refl a, ?_⟩
    intro n tree htree
    refine ⟨tree, htree, ?_⟩
    intro key
    simp
  | cons e entries ih =>
    obtain ⟨tree, htree⟩ := Option.isSome_iff_exists.1 (htrees e List.mem_cons_self)
    have hfind : ∀ n, OrdMap.find n (OrdMap.insert e.1.name
        (OrdMap.insert e.2.key e.2.value tree) a.indexes) =
        if e.1.name = n then some (OrdMap.insert e.2.key e.2.value tree)
          else OrdMap.find n a.indexes := fun n => OrdMap.find_insert _ _ _ _
    -- the first entry goes into its tree; the other entries still find theirs
    have hstep : insertEntry a e.1 (some e.2) = .ok { a with
        indexes := OrdMap.insert e.1.name (OrdMap.insert e.2.key e.2.value tree) a.indexes } := by
      rw [insertEntry, TableImage.editIndex, TableImage.indexTree_eq_ok.2 htree, Result.ok_bind,
        treeInsert, hfits e List.mem_cons_self]
      rfl
    have htrees' : ∀ e' ∈ entries, (OrdMap.find e'.1.name (OrdMap.insert e.1.name
        (OrdMap.insert e.2.key e.2.value tree) a.indexes)).isSome := by
      intro e' he'
      rw [hfind]
      split
      · rfl
      · exact htrees e' (List.mem_cons_of_mem _ he')
    obtain ⟨b, hb, hsame, hkeys⟩ := ih (a := { a with
      indexes := OrdMap.insert e.1.name (OrdMap.insert e.2.key e.2.value tree) a.indexes })
      htrees' (fun e' he' => hfits e' (List.mem_cons_of_mem _ he'))
    refine ⟨b, Result.bind_eq_ok.2 ⟨_, hstep, hb⟩, hsame, ?_⟩
    intro n tree₀ htree₀
    -- in the tree of the first entry one key more is there, elsewhere none
    by_cases hn : e.1.name = n
    · subst hn
      cases htree.symm.trans htree₀
      obtain ⟨tree', htree', hkeys⟩ := hkeys e.1.name _ ((hfind _).trans (if_pos rfl))
      refine ⟨tree', htree', ?_⟩
      intro key
      rw [hkeys, OrdMap.find_insert]
      by_cases hkey : e.2.key = key
      · simp [hkey]
      · simp [hkey]
    · obtain ⟨tree', htree', hkeys⟩ := hkeys n tree₀ ((hfind n).trans ((if_neg hn).trans htree₀))
      refine ⟨tree', htree', ?_⟩
      intro key
      rw [hkeys]
      simp [hn]

end Entries

/-! ### Probing halfway -/

section Midway

variable {env : Env} {s : CatState} {table : String} {image a : TableImage} {st : Staged}
  {seq₀ seq : Int64}

/-- A statement starts halfway, with no row staged. -/
theorem Midway.start (hw : image.WellFormed table) (seq₀ : Int64) :
    Midway image seq₀ ⟨[], [], seq₀⟩ image := by
  refine ⟨rfl, int64_le_refl _, fun _ => rfl, rfl, ?_, rfl, ?_, ?_⟩
  · intro p hp
    cases hp
  · intro k
    simp [Staged.pks]
  · intro idx hidx
    obtain ⟨tree, htree⟩ := Option.isSome_iff_exists.1 (hw.trees idx hidx)
    refine ⟨tree, tree, htree, htree, ?_⟩
    intro _ key
    simp

/-- Halfway through a batch a key is new to the tree exactly when it is new to the rows staged. -/
theorem Midway.newKey_iff (h : Midway image seq₀ st a) {idx : IndexDef}
    (hidx : idx ∈ image.def_.indexes) {e : Entry} :
    NewKey a [] idx e ↔ NewKey image st.unique idx e := by
  obtain ⟨tree, tree', htree, htree', hkeys⟩ := h.trees idx hidx
  refine imp_congr_right fun hu => ?_
  have hkey := hkeys hu e.key
  constructor
  · rintro ⟨t, ht, hnone, -⟩
    cases htree'.symm.trans ht
    rw [hnone] at hkey
    simp only [Option.isSome_none, Bool.false_eq_true, false_iff, not_or, Bool.not_eq_true,
      Option.isSome_eq_false_iff, Option.isNone_iff_eq_none] at hkey
    exact ⟨tree, htree, hkey.1, hkey.2⟩
  · rintro ⟨t, ht, hnone, hnot⟩
    cases htree.symm.trans ht
    refine ⟨tree', htree', ?_, List.not_mem_nil⟩
    by_contra hsome
    rcases hkey.1 (Option.isSome_iff_ne_none.2 hsome) with hstored | hstaged
    · rw [hnone] at hstored
      cases hstored
    · exact hnot hstaged

/-- The entries of a row after the staged ones are those it has after they are written. -/
theorem Midway.stageEntries_iff (h : Midway image seq₀ st a) {row : List Value} {pkKey : Bytes}
    {idxs : List IndexDef} (hidxs : ∀ idx ∈ idxs, idx ∈ image.def_.indexes)
    {entries : List (IndexDef × Entry)} :
    stageEntries a row pkKey [] idxs = .ok entries ↔
      stageEntries image row pkKey st.unique idxs = .ok entries := by
  induction idxs generalizing entries with
  | nil => exact Iff.rfl
  | cons idx idxs ih =>
    have hrest : ∀ idx ∈ idxs, idx ∈ image.def_.indexes :=
      fun i hi => hidxs i (List.mem_cons_of_mem _ hi)
    rw [stageEntries_cons, stageEntries_cons, h.def_eq]
    simp only [ih hrest, h.newKey_iff (hidxs idx List.mem_cons_self)]

/-- A parent is found after the staged rows are written exactly when it was stored before or is
one of them. -/
theorem Midway.parentKeyExists_iff (h : Midway image seq₀ st a)
    (himage : OrdMap.find table s.tables = some image) (hname : image.def_.name = table)
    {s' : CatState} (hs' : s'.tables = (s.store table a).tables) {fk : ForeignKey}
    {vals : List Value} : parentKeyExists s' fk vals = .ok true ↔
      parentKeyExists s fk vals = .ok true ∨ Supplied image.def_ st fk vals := by
  by_cases hself : fk.parent = table
  · have hparent : OrdMap.find fk.parent s'.tables = some a := by
      rw [hs', hself, CatState.find_store, if_pos rfl]
    have hname' : fk.parent = image.def_.name := hself.trans hname.symm
    rw [parentKeyExists_eq_true hparent, parentKeyExists_eq_true (hself ▸ himage), h.def_eq,
      Supplied, and_iff_right hname', ← exists_or]
    refine exists_congr fun key => ?_
    have hpk : (OrdMap.find key a.data).isSome ↔
        (OrdMap.find key image.data).isSome ∨ key ∈ st.pks := h.rows key
    have hindex : (∃ idx tree, referencedIndex image.def_ fk = .ok idx ∧
          OrdMap.find idx.name a.indexes = some tree ∧ (OrdMap.find key tree).isSome) ↔
        (∃ idx tree, referencedIndex image.def_ fk = .ok idx ∧
          OrdMap.find idx.name image.indexes = some tree ∧ (OrdMap.find key tree).isSome) ∨
        ∃ idx, referencedIndex image.def_ fk = .ok idx ∧ (idx.name, key) ∈ st.unique := by
      cases hidx : referencedIndex image.def_ fk with
      | error e => simp
      | ok idx =>
        obtain ⟨hmem, hunique⟩ := referencedIndex_eq_ok hidx
        obtain ⟨tree, tree', htree, htree', hkeys⟩ := h.trees idx hmem
        simp [htree, htree', hkeys hunique key]
    rw [hpk, hindex]
    simp only [and_or_left]
    exact or_or_or_comm
  · have hnot : ¬ Supplied image.def_ st fk vals := fun hs => hself (hs.1.trans hname)
    have hload : s'.load fk.parent = s.load fk.parent := by
      rw [CatState.load, CatState.load, hs', CatState.find_store, if_neg hself]
    rw [parentKeyExists, parentKeyExists, hload]
    simp only [hnot, or_false]

/-- What one insert checks of a row, after the staged ones are written, is what it needs to be
written after them. -/
theorem Midway.rowStaged_iff (h : Midway image seq₀ st a)
    (himage : OrdMap.find table s.tables = some image) (hname : image.def_.name = table)
    {s' : CatState} (hs' : s'.tables = (s.store table a).tables)
    {provided : List (String × Value)} {r : StagedRow} :
    RowStaged (env.row st.rows.length) s' a ⟨[], [], st.seq⟩ provided r seq ∧
        checkFits r.pkKey r.bytes = .ok () ↔ Admitted env s image st provided r seq := by
  -- alone, the row is built with its own ordinal and the sequence the batch has come to
  have hbuilt : buildRow (env.row st.rows.length) 0 a.def_ provided st.seq =
      buildRow env st.rows.length image.def_ provided st.seq := by
    rw [buildRow_row, h.def_eq]
  have hrefs : checkInsertFks s' a.def_ r.row [] = .ok () ↔ ∀ fk ∈ image.def_.foreignKeys,
      ∀ vals, fkValues image.def_ fk r.row = some vals →
        parentKeyExists s fk vals = .ok true ∨ Supplied image.def_ st fk vals := by
    rw [checkInsertFks, Result.forM_eq_ok, h.def_eq]
    refine forall₂_congr fun fk hfk => ?_
    rw [checkInsertFk_eq_ok]
    refine forall₂_congr fun vals hvals => ?_
    rw [h.parentKeyExists_iff himage hname hs']
    simp
  -- what is stored halfway is what was stored, and the rows staged
  have hfresh : OrdMap.find r.pkKey a.data = none ↔
      r.pkKey ∉ st.pks ∧ OrdMap.find r.pkKey image.data = none := by
    have hkey := not_congr (h.rows r.pkKey)
    rw [not_or] at hkey
    simpa [and_comm] using hkey
  have hentries : stageEntries a r.row r.pkKey [] image.def_.indexes = .ok r.entries ↔
      stageEntries image r.row r.pkKey st.unique image.def_.indexes = .ok r.entries :=
    h.stageEntries_iff (fun _ hidx => hidx)
  constructor
  · rintro ⟨hr, hfits⟩
    refine ⟨hbuilt ▸ hr.built, h.def_eq ▸ hr.checked, hrefs.1 hr.references,
      h.def_eq ▸ hr.key, hfresh.1 hr.fresh.2, ?_, hr.encoded, hfits⟩
    apply hentries.1
    rw [← h.def_eq]
    exact hr.entries
  · intro hr
    refine ⟨⟨hbuilt.trans hr.built, ?_, hrefs.2 hr.references, ?_,
      ⟨List.not_mem_nil, hfresh.2 hr.fresh⟩, ?_, hr.encoded⟩, hr.fits⟩
    · rw [h.def_eq]
      exact hr.checked
    · rw [h.def_eq]
      exact hr.key
    · rw [h.def_eq]
      exact hentries.2 hr.entries

/-- With distinct names, an entry under the name of an index is one of that index. -/
theorem index_unique {d : TableDef} (hd : d.WellFormed) {i j : IndexDef} (hi : i ∈ d.indexes)
    (hj : j ∈ d.indexes) (h : i.name = j.name) : i = j := by
  have : Std.Symm (fun i j : IndexDef => i.name ≠ j.name) := ⟨fun _ _ h => h.symm⟩
  by_contra hne
  exact hd.indexNames.forall hi hj hne h

/-- The unique keys of a row are the keys of its entries in the unique indexes. -/
theorem mem_takes_iff {d : TableDef} (hd : d.WellFormed) {r : StagedRow}
    (hr : ∀ e ∈ r.entries, e.1 ∈ d.indexes) {idx : IndexDef} (hidx : idx ∈ d.indexes)
    (hu : idx.unique = true) {key : Bytes} :
    (idx.name, key) ∈ r.takes ↔ ∃ e ∈ r.entries, e.1.name = idx.name ∧ e.2.key = key := by
  rw [StagedRow.takes, List.mem_map]
  constructor
  · rintro ⟨e, he, heq⟩
    obtain ⟨hname, hkey⟩ := Prod.mk.inj heq
    exact ⟨e, (List.mem_filter.1 he).1, hname, hkey⟩
  · rintro ⟨e, he, hname, rfl⟩
    have heq := index_unique hd (hr e he) hidx hname
    exact ⟨e, List.mem_filter.2 ⟨he, by rw [heq, hu]⟩, by rw [hname]⟩

/-- Writing a row that needs nothing more succeeds, and leaves the image halfway. -/
theorem Midway.push (h : Midway image seq₀ st a) (hw : image.WellFormed table)
    {provided : List (String × Value)} {r : StagedRow}
    (hr : Admitted env s image st provided r seq) :
    ∃ b, applyStaged a r = .ok b ∧ Midway image seq₀ (st.push r seq) b := by
  -- the row was admitted against the trees before the batch; those at hand have the staged keys too
  have hknown := stageEntries_eq_ok hr.entries
  have htrees : ∀ e ∈ r.entries, (OrdMap.find e.1.name a.indexes).isSome := by
    intro e he
    obtain ⟨_, tree', -, htree', -⟩ := h.trees e.1 (hknown e he).1
    rw [htree']
    rfl
  obtain ⟨b, hb, hsame, hkeys⟩ := insertEntries_total
    (a := { a with data := OrdMap.insert r.pkKey r.bytes a.data }) htrees
    (fun e he => (hknown e he).2.1)
  have happly : applyStaged a r = .ok b := by
    rw [applyStaged, treeInsert, hr.fits]
    exact hb
  refine ⟨b, happly, ?_⟩
  constructor
  case applied =>
    rw [Staged.push_rows, List.foldlM_append, h.applied]
    exact Result.bind_eq_ok.2 ⟨a, rfl, Result.bind_eq_ok.2 ⟨b, happly, rfl⟩⟩
  case seq_le => exact int64_le_trans h.seq_le (buildRow_seq hr.built).1
  case seq_kept =>
    intro hno
    exact (buildRow_seq_kept hno hr.built).trans (h.seq_kept hno)
  case taken =>
    rw [Staged.push_rows, List.flatMap_append, ← h.taken]
    simp [Staged.push]
  case fresh =>
    intro p hp tree htree
    rcases List.mem_append.1 hp with hp | hp
    · exact h.fresh p hp tree htree
    · obtain ⟨e, he, rfl⟩ := List.mem_map.1 hp
      obtain ⟨he, hu⟩ := List.mem_filter.1 he
      obtain ⟨tree', htree', hnone, -⟩ := (hknown e he).2.2 hu
      cases htree.symm.trans htree'
      exact hnone
  case def_eq => exact hsame.1.trans h.def_eq
  case rows =>
    intro k
    rw [hsame.2, OrdMap.find_insert, Staged.push_pks, List.mem_append, List.mem_singleton]
    by_cases hk : r.pkKey = k
    · simp [hk]
    · rw [if_neg hk, h.rows, or_iff_left (fun heq => hk heq.symm : k ≠ r.pkKey)]
  case trees =>
    intro idx hidx
    obtain ⟨tree, tree', htree, htree', hstaged⟩ := h.trees idx hidx
    obtain ⟨tree'', htree'', hnew⟩ := hkeys idx.name tree' htree'
    refine ⟨tree, tree'', htree, htree'', ?_⟩
    intro hu key
    rw [hnew, hstaged hu, or_assoc, ← mem_takes_iff hw.def_ (fun e he => (hknown e he).1) hidx hu]
    exact or_congr_right List.mem_append.symm

end Midway

/-! ## Statements and batches -/

section After

variable {s : CatState} {table : String} {a b : TableImage} {seq₀ seq seq' : Int64}

theorem after_tables (s : CatState) (table : String) (a : TableImage) (seq₀ seq : Int64) :
    (after s table a seq₀ seq).tables = (s.store table a).tables := by
  unfold after
  split <;> rfl

theorem find_after (s : CatState) (table : String) (a : TableImage) (seq₀ seq : Int64) :
    OrdMap.find table (after s table a seq₀ seq).tables = some a := by
  rw [after_tables, CatState.find_store, if_pos rfl]

/-- What is stored with the sequence it had leaves the state as it was. -/
theorem after_self (hs : s.WellFormed) (ha : OrdMap.find table s.tables = some a) :
    after s table a seq₀ seq₀ = s := by
  rw [after, if_neg (not_not.2 rfl), CatState.store, OrdMap.insert_of_find hs.sorted ha]

theorem store_store (s : CatState) (table : String) (a b : TableImage) :
    (s.store table a).store table b = s.store table b := by
  rw [CatState.store, CatState.store, CatState.store, OrdMap.insert_insert]

theorem storeSeq_storeSeq (s : CatState) (table : String) (seq seq' : Int64) :
    (s.storeSeq table seq).storeSeq table seq' = s.storeSeq table seq' := by
  rw [CatState.storeSeq, CatState.storeSeq, CatState.storeSeq, OrdMap.insert_insert]

/-- Of two statements that step a sequence the later counts. -/
theorem after_after (hle : seq₀ ≤ seq) (hle' : seq ≤ seq') :
    after (after s table a seq₀ seq) table b seq seq' = after s table b seq₀ seq' := by
  by_cases h : seq = seq₀
  · subst h
    rw [after, after, if_neg (not_not.2 rfl), store_store]
    rfl
  · have hne : seq' ≠ seq₀ := by
      intro heq
      subst heq
      exact h (Int64.le_antisymm hle' hle)
    have hput : (after s table a seq₀ seq).store table b =
        (s.store table b).storeSeq table seq := by
      rw [after, if_pos h]
      show ((s.store table a).store table b).storeSeq table seq = _
      rw [store_store]
    have hgoal : after s table b seq₀ seq' = (s.store table b).storeSeq table seq' := by
      rw [after, if_pos hne]
    rw [hgoal, after, hput]
    by_cases heq : seq' = seq
    · rw [if_neg (not_not.2 heq), heq]
    · rw [if_pos heq, storeSeq_storeSeq]

/-- The next statement starts from the sequence the one before left. -/
theorem startSeq_after (hname : a.def_.name = table)
    (hkept : a.def_.columns.any (fun c => c.autoIncrement) = false → seq = startSeq s a.def_) :
    startSeq (after s table b (startSeq s a.def_) seq) a.def_ = seq := by
  cases hauto : a.def_.columns.any (fun c => c.autoIncrement) with
  | false =>
    rw [startSeq, hauto, if_neg Bool.false_ne_true]
    have := hkept hauto
    rw [startSeq, hauto, if_neg Bool.false_ne_true] at this
    exact this.symm
  | true =>
    have hstart : startSeq s a.def_ = s.loadSeq table := by
      rw [startSeq, hauto, if_pos rfl, hname]
    rw [hstart, startSeq, hauto, if_pos rfl, hname, after]
    by_cases h : seq = s.loadSeq table
    · rw [if_neg (not_not.2 h), h]
      rfl
    · rw [if_pos h]
      show (OrdMap.find table (OrdMap.insert table seq s.seqs)).getD 1 = seq
      rw [OrdMap.find_insert, if_pos rfl]
      rfl

end After

section Insert

variable {env : Env} {fuel : Nat} {s s' : CatState} {table : String} {image a : TableImage}
  {st st' : Staged} {seq₀ : Int64}

/-- An insert stages every row, then writes every staged row. -/
theorem insert_iff (himage : OrdMap.find table s.tables = some image)
    (hload : image.loadIndexes = .ok ()) {input : List (List (String × Value))}
    {out : List (List Value)} :
    insert env s table input = .ok (out, s') ↔ ∃ st b,
      input.foldlM (stageRow env s image) ⟨[], [], startSeq s image.def_⟩ = .ok st ∧
      st.rows.foldlM applyStaged image = .ok b ∧ out = st.rows.map StagedRow.row ∧
      s' = after s table b (startSeq s image.def_) st.seq := by
  rw [insert, CatState.load_eq_ok.2 himage, Result.ok_bind, hload]
  constructor
  · intro h
    obtain ⟨⟨⟩, -, h⟩ := Result.bind_eq_ok.1 h
    obtain ⟨st, hst, h⟩ := Result.bind_eq_ok.1 h
    obtain ⟨b, hb, h⟩ := Result.bind_eq_ok.1 h
    cases h
    exact ⟨st, b, hst, hb, rfl, rfl⟩
  · rintro ⟨st, b, hst, hb, rfl, rfl⟩
    exact Result.bind_eq_ok.2 ⟨(), rfl, Result.bind_eq_ok.2 ⟨st, hst,
      Result.bind_eq_ok.2 ⟨b, hb, rfl⟩⟩⟩

theorem Midway.loadIndexes (h : Midway image seq₀ st a) : a.loadIndexes = .ok () := by
  rw [TableImage.loadIndexes, Result.forM_eq_ok, h.def_eq]
  intro idx hidx
  obtain ⟨_, tree', -, htree', -⟩ := h.trees idx hidx
  rw [TableImage.indexTree_eq_ok.2 htree']
  rfl

/-- One insert after the staged rows are written writes the row that can be staged next. -/
theorem Midway.insert_iff (h : Midway image (startSeq s image.def_) st a)
    (hw : image.WellFormed table) (himage : OrdMap.find table s.tables = some image)
    {provided : List (String × Value)} {out : List (List Value)} :
    insert (env.row st.rows.length) (after s table a (startSeq s image.def_) st.seq) table
        [provided] = .ok (out, s') ↔ ∃ r seq b, Admitted env s image st provided r seq ∧
      applyStaged a r = .ok b ∧ out = [r.row] ∧
      s' = after s table b (startSeq s image.def_) seq := by
  have hstart : startSeq (after s table a (startSeq s image.def_) st.seq) a.def_ = st.seq := by
    rw [h.def_eq]
    exact startSeq_after hw.named h.seq_kept
  rw [Catalog.insert_iff (find_after s table a _ _) h.loadIndexes, hstart]
  have hiff : ∀ {r seq}, RowStaged (env.row st.rows.length)
      (after s table a (startSeq s image.def_) st.seq) a ⟨[], [], st.seq⟩ provided r seq ∧
        checkFits r.pkKey r.bytes = .ok () ↔ Admitted env s image st provided r seq :=
    h.rowStaged_iff himage hw.named (after_tables s table a _ _)
  constructor
  · rintro ⟨st₁, b, hst₁, hb, rfl, rfl⟩
    obtain ⟨st₂, hstage, hnil⟩ := Result.bind_eq_ok.1 hst₁
    cases hnil
    obtain ⟨r, seq, hr, hfits, rfl⟩ := stageRow_iff.1 hstage
    have hadm := hiff.1 ⟨hr, hfits⟩
    obtain ⟨b', hb', hnil⟩ := Result.bind_eq_ok.1 hb
    cases hnil
    exact ⟨r, seq, b, hadm, hb', rfl, after_after h.seq_le (buildRow_seq hadm.built).1⟩
  · rintro ⟨r, seq, b, hadm, hb, rfl, rfl⟩
    obtain ⟨hr, hfits⟩ := hiff.2 hadm
    refine ⟨_, b, Result.bind_eq_ok.2 ⟨_, stageRow_iff.2 ⟨r, seq, hr, hfits, rfl⟩, rfl⟩,
      Result.bind_eq_ok.2 ⟨b, hb, rfl⟩, rfl, ?_⟩
    exact (after_after h.seq_le (buildRow_seq hadm.built).1).symm

/-- A batch of single inserts writes the rows that can be written in turn. -/
theorem Midway.batch_iff (h : Midway image (startSeq s image.def_) st a)
    (hw : image.WellFormed table) (himage : OrdMap.find table s.tables = some image)
    {input : List (List (String × Value))} :
    (∃ counts, batch env.row fuel st.rows.length (after s table a (startSeq s image.def_) st.seq)
        (singles table input) = .ok (counts, s')) ↔ ∃ st' b, InTurn env s image st input st' ∧
      Midway image (startSeq s image.def_) st' b ∧
      s' = after s table b (startSeq s image.def_) st'.seq := by
  induction input generalizing st a with
  | nil =>
    constructor
    · rintro ⟨counts, hbatch⟩
      cases hbatch
      exact ⟨st, a, .nil, h, rfl⟩
    · rintro ⟨st', b, hturn, hb, rfl⟩
      cases hturn
      cases h.applied.symm.trans hb.applied
      exact ⟨[], rfl⟩
  | cons provided input ih =>
    constructor
    · rintro ⟨counts, hbatch⟩
      obtain ⟨⟨count, s₁⟩, hspec, hbatch⟩ := Result.bind_eq_ok.1 hbatch
      obtain ⟨⟨counts', s₂⟩, hrest, heq⟩ := Result.bind_eq_ok.1 hbatch
      cases heq
      obtain ⟨⟨out, s₃⟩, hins, heq⟩ := Result.bind_eq_ok.1 hspec
      cases heq
      -- the first job of the batch is an insert of one row, which is the next in turn
      obtain ⟨r, seq, b, hadm, hb, -, rfl⟩ := (h.insert_iff hw himage).1 hins
      obtain ⟨b', hb', hmid⟩ := h.push hw hadm
      cases hb.symm.trans hb'
      obtain ⟨st', c, hturn, hc⟩ := (ih hmid).1 ⟨counts', by
        rw [Staged.push_length]
        exact hrest⟩
      exact ⟨st', c, .cons hadm hturn, hc⟩
    · rintro ⟨st', c, hturn, hc⟩
      cases hturn with
      | @cons _ _ _ r seq _ hadm hrest =>
        obtain ⟨b, hb, hmid⟩ := h.push hw hadm
        obtain ⟨counts, hbatch⟩ := (ih hmid).2 ⟨st', c, hrest, hc⟩
        rw [Staged.push_length] at hbatch
        have hins := (h.insert_iff hw himage).2 ⟨r, seq, b, hadm, hb, rfl, rfl⟩
        refine ⟨1 :: counts, Result.bind_eq_ok.2 ⟨(1, _), ?_,
          Result.bind_eq_ok.2 ⟨(counts, s'), hbatch, rfl⟩⟩⟩
        exact Result.bind_eq_ok.2 ⟨_, hins, rfl⟩

/-- A row is staged exactly when it could be written after the staged ones and waits for none of
them. -/
theorem Midway.stageRow_iff (h : Midway image seq₀ st a)
    (himage : OrdMap.find table s.tables = some image) (hname : image.def_.name = table)
    {provided : List (String × Value)} :
    stageRow env s image st provided = .ok st' ↔ ∃ r seq,
      Admitted env s image st provided r seq ∧ (∀ q ∈ st.rows, ¬ r.WaitsFor image.def_ q) ∧
        st' = st.push r seq := by
  -- the references checked against the state and the keys staged so far
  have hrefs : ∀ r : StagedRow, checkInsertFks s image.def_ r.row st.pks = .ok () ↔
      ∀ fk ∈ image.def_.foreignKeys, ∀ vals, fkValues image.def_ fk r.row = some vals →
        parentKeyExists s fk vals = .ok true ∨ (fk.parent = image.def_.name ∧
          fk.parentColumns = image.def_.pk ∧ ∃ key, encodeKey vals = .ok key ∧ key ∈ st.pks) := by
    intro r
    rw [checkInsertFks, Result.forM_eq_ok]
    exact forall₂_congr fun fk hfk => checkInsertFk_eq_ok
  rw [Catalog.stageRow_iff]
  refine exists₂_congr fun r seq => ?_
  constructor
  · rintro ⟨hr, hfits, rfl⟩
    have hparent := (hrefs r).1 hr.references
    refine ⟨⟨hr.built, hr.checked, ?_, hr.key, hr.fresh, hr.entries, hr.encoded, hfits⟩, ?_, rfl⟩
    · intro fk hfk vals hvals
      rcases hparent fk hfk vals hvals with hstored | ⟨hself, hpk, key, hkey, hmem⟩
      · exact .inl hstored
      · exact .inr ⟨hself, key, hkey, .inl ⟨hpk.symm, hmem⟩⟩
    · rintro q hq ⟨fk, hfk, hself, hpk, vals, key, idx, hvals, hkey, hidx, hmem⟩
      rcases hparent fk hfk vals hvals with hstored | ⟨-, hpk', -⟩
      · -- the key is stored, so no staged row could take it
        have hfind : OrdMap.find fk.parent s.tables = some image := by
          rw [hself, hname]
          exact himage
        obtain ⟨key', hkey', ⟨hpk', -⟩ | ⟨-, idx', tree, hidx', htree, hsome⟩⟩ :=
          (parentKeyExists_eq_true hfind).1 hstored
        · exact hpk hpk'
        · cases hkey.symm.trans hkey'
          cases hidx.symm.trans hidx'
          have hstaged : (idx.name, key) ∈ st.unique := by
            rw [h.taken]
            exact List.mem_flatMap.2 ⟨q, hq, hmem⟩
          rw [h.fresh _ hstaged tree htree] at hsome
          cases hsome
      · exact hpk hpk'.symm
  · rintro ⟨hr, hwaits, rfl⟩
    refine ⟨⟨hr.built, hr.checked, (hrefs r).2 ?_, hr.key, hr.fresh, hr.entries, hr.encoded⟩,
      hr.fits, rfl⟩
    intro fk hfk vals hvals
    rcases hr.references fk hfk vals hvals with hstored |
      ⟨hself, key, hkey, ⟨hpk, hmem⟩ | ⟨hpk, idx, hidx, hmem⟩⟩
    · exact .inl hstored
    · exact .inr ⟨hself, hpk.symm, key, hkey, hmem⟩
    · rw [h.taken] at hmem
      obtain ⟨q, hq, hmem⟩ := List.mem_flatMap.1 hmem
      exact absurd ⟨fk, hfk, hself, hpk, vals, key, idx, hvals, hkey, hidx, hmem⟩ (hwaits q hq)

/-- No row of a list waits for an earlier one. -/
def NoneWaits (d : TableDef) (rows : List StagedRow) : Prop :=
  rows.Pairwise (fun earlier r => ¬ r.WaitsFor d earlier)

theorem noneWaits_push {d : TableDef} {r : StagedRow} {seq : Int64} :
    NoneWaits d (st.push r seq).rows ↔
      NoneWaits d st.rows ∧ ∀ q ∈ st.rows, ¬ r.WaitsFor d q := by
  rw [NoneWaits, Staged.push_rows, List.pairwise_append]
  simp [NoneWaits]

/-- Rows are staged exactly when they can be written in turn and none waits for an earlier one. -/
theorem Midway.stageRows_iff (h : Midway image seq₀ st a) (hw : image.WellFormed table)
    (himage : OrdMap.find table s.tables = some image) (hnone : NoneWaits image.def_ st.rows)
    {input : List (List (String × Value))} :
    input.foldlM (stageRow env s image) st = .ok st' ↔
      InTurn env s image st input st' ∧ NoneWaits image.def_ st'.rows := by
  induction input generalizing st a with
  | nil =>
    constructor
    · intro hst
      cases hst
      exact ⟨.nil, hnone⟩
    · rintro ⟨hturn, -⟩
      cases hturn
      rfl
  | cons provided input ih =>
    rw [List.foldlM_cons, Result.bind_eq_ok]
    constructor
    · rintro ⟨st₁, hstage, hrest⟩
      obtain ⟨r, seq, hadm, hwaits, rfl⟩ := (h.stageRow_iff himage hw.named).1 hstage
      obtain ⟨b, -, hmid⟩ := h.push hw hadm
      obtain ⟨hturn, hnone'⟩ := (ih hmid (noneWaits_push.2 ⟨hnone, hwaits⟩)).1 hrest
      exact ⟨.cons hadm hturn, hnone'⟩
    · rintro ⟨hturn, hnone'⟩
      cases hturn with
      | @cons _ _ _ r seq _ hadm hrest =>
        obtain ⟨b, -, hmid⟩ := h.push hw hadm
        have hpush : NoneWaits image.def_ (st.push r seq).rows :=
          List.Pairwise.sublist hrest.rows_prefix.sublist hnone'
        refine ⟨st.push r seq, (h.stageRow_iff himage hw.named).2
          ⟨r, seq, hadm, (noneWaits_push.1 hpush).2, rfl⟩, ?_⟩
        exact (ih hmid hpush).2 ⟨hrest, hnone'⟩

/-- Rows that can be written in turn are written. -/
theorem Midway.inTurn (h : Midway image seq₀ st a) (hw : image.WellFormed table)
    {input : List (List (String × Value))} (hturn : InTurn env s image st input st') :
    ∃ b, Midway image seq₀ st' b := by
  induction hturn generalizing a with
  | nil => exact ⟨a, h⟩
  | cons hadm _ ih =>
    obtain ⟨b, -, hmid⟩ := h.push hw hadm
    exact ih hmid

/-- **Inserts in sequence.** In every reachable state, an insert into a table commits exactly when
the batch of single inserts of its rows does, and leaves the same state, if and only if no row of a
list whose rows can all be written in turn refers through a unique index of the table to a key that
an earlier row takes. -/
theorem insert_same_iff {ops : List JobOp} (hrun : Run ops s)
    (himage : OrdMap.find table s.tables = some image) (env : Env) (fuel : Nat)
    (input : List (List (String × Value))) :
    SameAsSequence env fuel s table input ↔
      ∀ st, InTurn env s image ⟨[], [], startSeq s image.def_⟩ input st →
        NoneWaits image.def_ st.rows := by
  have hwf := hrun.sound.wellFormed
  have hw := hwf.tables table image himage
  have hstart := Midway.start hw (startSeq s image.def_)
  -- one at a time, the rows need to be admitted in turn and nothing else
  have hbatch : ∀ s', (∃ counts, batch env.row fuel 0 s (singles table input) =
      .ok (counts, s')) ↔ ∃ st b, InTurn env s image ⟨[], [], startSeq s image.def_⟩ input st ∧
        Midway image (startSeq s image.def_) st b ∧
        s' = after s table b (startSeq s image.def_) st.seq := by
    intro s'
    rw [← hstart.batch_iff hw himage, after_self hwf himage]
    rfl
  -- all at once, no row may wait for another besides
  have hinsert : ∀ s', (∃ out, insert env s table input = .ok (out, s')) ↔ ∃ st b,
      InTurn env s image ⟨[], [], startSeq s image.def_⟩ input st ∧
        NoneWaits image.def_ st.rows ∧ Midway image (startSeq s image.def_) st b ∧
        s' = after s table b (startSeq s image.def_) st.seq := by
    intro s'
    have hstaged : ∀ st, input.foldlM (stageRow env s image)
        ⟨[], [], startSeq s image.def_⟩ = .ok st ↔
        InTurn env s image ⟨[], [], startSeq s image.def_⟩ input st ∧
          NoneWaits image.def_ st.rows :=
      fun st => hstart.stageRows_iff hw himage List.Pairwise.nil
    constructor
    · rintro ⟨out, h⟩
      obtain ⟨st, b, hst, hb, -, hs'⟩ := (insert_iff himage hstart.loadIndexes).1 h
      obtain ⟨hturn, hnone⟩ := (hstaged st).1 hst
      obtain ⟨b', hmid⟩ := hstart.inTurn hw hturn
      cases hb.symm.trans hmid.applied
      exact ⟨st, b, hturn, hnone, hmid, hs'⟩
    · rintro ⟨st, b, hturn, hnone, hmid, hs'⟩
      exact ⟨_, (insert_iff himage hstart.loadIndexes).2
        ⟨st, b, (hstaged st).2 ⟨hturn, hnone⟩, hmid.applied, rfl, hs'⟩⟩
  constructor
  · intro hsame st hturn
    obtain ⟨b, hmid⟩ := hstart.inTurn hw hturn
    obtain ⟨st', b', hturn', hnone, -⟩ :=
      (hinsert _).1 ((hsame _).2 ((hbatch _).2 ⟨st, b, hturn, hmid, rfl⟩))
    rwa [hturn.unique hturn']
  · intro hnone s'
    rw [hinsert, hbatch]
    constructor
    · rintro ⟨st, b, hturn, -, h⟩
      exact ⟨st, b, hturn, h⟩
    · rintro ⟨st, b, hturn, h⟩
      exact ⟨st, b, hturn, hnone st hturn, h⟩

end Insert

/-! ### Staff -/

/-- Staff with unique badges, led by the holder of a badge. -/
def staffDef : TableDef :=
  ⟨"staff", [ColumnDef.new "id" .i64, { ColumnDef.new "badge" .i64 with unique := true },
    ColumnDef.new "lead" .i64], ["id"], [], [],
    [⟨"staff_lead", ["lead"], "staff", ["badge"], .restrict, .restrict⟩]⟩

/-- A lead, and one who is led by them. -/
def lead : List (String × Value) := [("id", .i64 1), ("badge", .i64 7)]

def member (id badge : Int64) : List (String × Value) :=
  [("id", .i64 id), ("badge", .i64 badge), ("lead", .i64 7)]

/-- The rows of a list can be staged. -/
def stages (input : List (List (String × Value))) (s : CatState) : Bool :=
  (OrdMap.find "staff" s.tables).any (fun image => (input.foldlM
    (stageRow (tickingEnv 2) s image) ⟨[], [], startSeq s image.def_⟩).toOption.isSome)

/-- Members whose lead is stored are inserted together or one after the other. -/
theorem insert_same_members : ∃ s, Run [.createTable staffDef, .insert "staff" [lead]] s ∧
    SameAsSequence (tickingEnv 2) 9 s "staff" [member 2 8, member 3 9] := by
  obtain ⟨s, hrun, htest⟩ := RunWhere.eval (C := Free) tickingEnv 9
    [.createTable staffDef, .insert "staff" [lead]] (stages [member 2 8, member 3 9])
    (fun op _ env s => meets_free _ _ _ _) (by decide +kernel)
  obtain ⟨image, himage, htest⟩ := (Option.any_eq_true _ _).1 htest
  obtain ⟨st, hst⟩ := Option.isSome_iff_exists.1 htest
  have hw := hrun.run.sound.wellFormed.tables _ _ himage
  obtain ⟨hturn, hnone⟩ := ((Midway.start hw _).stageRows_iff hw himage List.Pairwise.nil).1
    (Result.toOption_eq_some hst)
  refine ⟨s, hrun.run, (insert_same_iff hrun.run himage (tickingEnv 2) 9 _).2 ?_⟩
  intro st' hturn'
  rwa [hturn'.unique hturn]

/-- A lead and a member are inserted one after the other, but not together. -/
def onlyInSequence (s : CatState) : Bool :=
  (insert (tickingEnv 1) s "staff" [lead, member 2 8]).toOption.isNone &&
    (batch (tickingEnv 1).row 9 0 s (singles "staff" [lead, member 2 8])).toOption.isSome

/-- The member waits for the lead. -/
theorem insert_differs_staff : ∃ s, Run [.createTable staffDef] s ∧
    ¬ SameAsSequence (tickingEnv 1) 9 s "staff" [lead, member 2 8] := by
  obtain ⟨s, hrun, htest⟩ := RunWhere.eval (C := Free) tickingEnv 9 [.createTable staffDef]
    onlyInSequence (fun op _ env s => meets_free _ _ _ _) (by decide +kernel)
  rw [onlyInSequence, Bool.and_eq_true] at htest
  obtain ⟨⟨counts, s'⟩, hbatch⟩ := Option.isSome_iff_exists.1 htest.2
  refine ⟨s, hrun.run, fun hsame => ?_⟩
  obtain ⟨out, hins⟩ := (hsame s').2 ⟨counts, Result.toOption_eq_some hbatch⟩
  rw [hins] at htest
  cases htest.1

end Edb.Catalog
