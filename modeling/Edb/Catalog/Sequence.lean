import Edb.Catalog.Version

/-!
# Sequences

The sequence of a table is stepped past every value an insert stores in its auto-increment
column, and by nothing else. As long as no update, closure or added column brings a value at or
above the sequence into the column, every stored value is below it, and what is generated is
new unless the column holds the largest number there is (`generated_fresh_iff`).
-/

namespace Edb.Catalog

open Edb.Types Edb.Lib

/-! ## The counter -/

theorem int64_le_refl (a : Int64) : a ≤ a := Int64.le_iff_toInt_le.2 (Int.le_refl _)

theorem int64_le_trans {a b c : Int64} (h : a ≤ b) (h' : b ≤ c) : a ≤ c := by
  rw [Int64.le_iff_toInt_le] at h h' ⊢
  exact Int.le_trans h h'

theorem int64_le_max (a b : Int64) : a ≤ max a b ∧ b ≤ max a b := by
  show a ≤ (if a ≤ b then b else a) ∧ b ≤ (if a ≤ b then b else a)
  split
  · next h => exact ⟨h, int64_le_refl b⟩
  · next h =>
    refine ⟨int64_le_refl a, ?_⟩
    rw [Int64.le_iff_toInt_le] at h ⊢
    omega

theorem le_nextI64 (v : Int64) : v ≤ nextI64 v := by
  by_cases h : v = Int64.maxValue
  · rw [nextI64, if_pos h]
    exact int64_le_refl v
  · rw [Int64.le_iff_toInt_le, nextI64_toInt h]
    omega

/-- Only the largest number is not below its successor. -/
theorem nextI64_le_self {v : Int64} (h : nextI64 v ≤ v) : v = Int64.maxValue := by
  by_contra hmax
  rw [Int64.le_iff_toInt_le, nextI64_toInt hmax] at h
  omega

theorem eq_maxValue_of_le {v : Int64} (h : Int64.maxValue ≤ v) : v = Int64.maxValue := by
  rw [Int64.le_iff_toInt_le] at h
  have hlt := v.toInt_lt
  apply Int64.toInt_inj.1
  have hmax : Int64.maxValue.toInt = 2 ^ 63 - 1 := rfl
  omega

/-! ## Building a row -/

/-- The auto-increment cells of a row are below a sequence. -/
def TableDef.BelowSeq (d : TableDef) (seq : Int64) (row : List Value) : Prop :=
  ∀ (ci : Nat) (col : ColumnDef) (n : Int64), d.columns[ci]? = some col →
    col.autoIncrement = true → row[ci]? = some (.i64 n) → nextI64 n ≤ seq

theorem TableDef.BelowSeq.mono {d : TableDef} {seq seq' : Int64} {row : List Value}
    (h : d.BelowSeq seq row) (hle : seq ≤ seq') : d.BelowSeq seq' row :=
  fun ci col n hcol hauto hv => int64_le_trans (h ci col n hcol hauto hv) hle

section Build

variable {env : Env} {ordinal ci : Nat} {d : TableDef} {seq seq' : Int64}

theorem advance_le (col : ColumnDef) (v : Value) (seq : Int64) : seq ≤ advance col v seq := by
  unfold advance
  split
  · split
    · exact (int64_le_max _ _).1
    · exact int64_le_refl _
  · exact int64_le_refl _

theorem generate_snd_le (col : ColumnDef) : seq ≤ (generate env ordinal ci col seq).2 := by
  unfold generate
  split
  · exact le_nextI64 seq
  · split
    · exact int64_le_refl _
    · split
      · exact int64_le_refl _
      · split <;> exact int64_le_refl _

/-- One cell: the sequence does not fall, an auto-increment cell is below the sequence after it,
and a generated one is the sequence before it. -/
theorem fill_seq (env : Env) (ordinal ci : Nat) (seq : Int64) (col : ColumnDef)
    (cell : Option Value) :
    seq ≤ (fill env ordinal ci col cell seq).2 ∧
      (col.autoIncrement = true → ∀ n, (fill env ordinal ci col cell seq).1 = .i64 n →
        nextI64 n ≤ (fill env ordinal ci col cell seq).2) ∧
      (col.autoIncrement = true → cell = none →
        (fill env ordinal ci col cell seq).1 = .i64 seq) := by
  cases cell with
  | some v =>
    refine ⟨advance_le col v seq, ?_, ?_⟩
    · intro hauto n hv
      cases (show v = .i64 n from hv)
      show nextI64 n ≤ advance col (.i64 n) seq
      rw [advance, if_pos hauto]
      exact (int64_le_max _ _).2
    · intro _ hnone
      cases hnone
  | none =>
    have hgen : col.autoIncrement = true →
        generate env ordinal ci col seq = (.i64 seq, nextI64 seq) := by
      intro hauto
      rw [generate, if_pos hauto]
    refine ⟨generate_snd_le col, ?_, ?_⟩
    · intro hauto n hv
      rw [fill, hgen hauto] at hv ⊢
      cases hv
      exact int64_le_refl _
    · intro hauto _
      rw [fill, hgen hauto]

/-- Building a row moves the sequence past every number it takes. -/
theorem buildCells_seq {cells : List (Option Value)} {cols : List ColumnDef} {row : List Value}
    (h : buildCells env ordinal d cells ci cols seq = .ok (row, seq')) :
    seq ≤ seq' ∧ ∀ i col, cols[i]? = some col → col.autoIncrement = true →
      (∀ n, row[i]? = some (.i64 n) → nextI64 n ≤ seq') ∧
      (cells[ci + i]?.getD none = none → ∃ n, row[i]? = some (.i64 n) ∧ seq ≤ n) := by
  induction cols generalizing ci seq row with
  | nil =>
    cases h
    refine ⟨int64_le_refl _, ?_⟩
    intro i col hcol
    rw [List.getElem?_nil] at hcol
    cases hcol
  | cons c cols ih =>
    obtain ⟨_, -, h⟩ := Result.bind_eq_ok.1 h
    obtain ⟨⟨rest, seq₂⟩, hrest, h⟩ := Result.bind_eq_ok.1 h
    cases h
    obtain ⟨hstep, hbelow, hgen⟩ := fill_seq env ordinal ci seq c (cells[ci]?.getD none)
    obtain ⟨hle, hcells⟩ := ih hrest
    refine ⟨int64_le_trans hstep hle, ?_⟩
    intro i col hcol hauto
    cases i with
    | zero =>
      cases hcol
      constructor
      · intro n hn
        exact int64_le_trans (hbelow hauto n (Option.some.inj hn)) hle
      · intro hnone
        exact ⟨seq, congrArg some (hgen hauto hnone), int64_le_refl _⟩
    | succ i =>
      obtain ⟨hn, hnone⟩ := hcells i col hcol hauto
      refine ⟨hn, ?_⟩
      intro hcell
      rw [Nat.add_right_comm] at hnone
      obtain ⟨n, hv, hseq⟩ := hnone hcell
      exact ⟨n, hv, int64_le_trans hstep hseq⟩

/-- A column that is not named gets no value. -/
theorem provide_other {cells cells' : List (Option Value)} {provided : List (String × Value)}
    (h : provide d cells provided = .ok cells')
    (hne : ∀ p ∈ provided, d.colIndex p.1 ≠ some ci) : cells'[ci]? = cells[ci]? := by
  induction provided generalizing cells with
  | nil =>
    cases h
    rfl
  | cons p provided ih =>
    obtain ⟨name, value⟩ := p
    rw [provide] at h
    cases hcj : d.colIndex name with
    | none =>
      rw [hcj] at h
      cases h
    | some cj =>
      rw [hcj] at h
      obtain ⟨-, h⟩ := Result.guard_eq_ok.1 h
      obtain ⟨-, h⟩ := Result.guard_eq_ok.1 h
      rw [ih h (fun p hp => hne p (List.mem_cons_of_mem _ hp)), List.getElem?_set_ne]
      intro heq
      exact hne (name, value) (by simp) (heq ▸ hcj)

/-- A built row is below the sequence after it, and what was generated for it is not below the
sequence before. -/
theorem buildRow_seq {provided : List (String × Value)} {row : List Value}
    (h : buildRow env ordinal d provided seq = .ok (row, seq')) :
    seq ≤ seq' ∧ d.BelowSeq seq' row ∧ ∀ (ci : Nat) (col : ColumnDef),
      d.columns[ci]? = some col → col.autoIncrement = true → (∀ p ∈ provided, p.1 ≠ col.name) →
        ∃ n, row[ci]? = some (.i64 n) ∧ seq ≤ n := by
  obtain ⟨cells, hcells, h⟩ := Result.bind_eq_ok.1 h
  obtain ⟨hle, hcols⟩ := buildCells_seq h
  refine ⟨hle, ?_, ?_⟩
  · intro ci col n hcol hauto hv
    exact (hcols ci col hcol hauto).1 n hv
  · intro ci col hcol hauto hne
    have hcell : cells[ci]? = (List.replicate d.columns.length none)[ci]? := by
      apply provide_other hcells
      intro p hp hci
      obtain ⟨col', hcol', hname⟩ := TableDef.colIndex_eq_some hci
      cases hcol.symm.trans hcol'
      exact hne p hp hname.symm
    apply (hcols ci col hcol hauto).2
    rw [Nat.zero_add, hcell, List.getElem?_replicate]
    split <;> rfl

end Build

/-! ## Every stored value is below its sequence -/

/-- The bytes of a row hold values below the sequence of its table. -/
def StoredBelow (seq : String → Int64) : RowProp := fun d _ bytes =>
  ∀ row, decodePadded d bytes = .ok row → d.BelowSeq (seq d.name) row

/-- Every stored value of an auto-increment column is below its table's sequence. -/
def CatState.SeqAhead (s : CatState) : Prop :=
  ∀ t image, OrdMap.find t s.tables = some image →
    ∀ e ∈ image.data, StoredBelow s.loadSeq image.def_ e.1 e.2

/-- No job brings a value at or above the sequence into an auto-increment column: no update by
its new values, no closure, and no added column by its default when there are rows. -/
def StaysBelowSeq : JobCond := fun env fuel s op =>
  (∀ table image deltas, OrdMap.find table s.tables = some image →
    op.Targets env s table image deltas → ∀ d ∈ deltas,
      image.def_.BelowSeq (s.loadSeq table) d.newRow) ∧
  (∀ plan, op.Plans env fuel s plan → ∀ r ∈ plan.rewrites, ∀ image,
    OrdMap.find (ofLex r.1).1 s.tables = some image →
      image.def_.BelowSeq (s.loadSeq (ofLex r.1).1) r.2.2) ∧
  ∀ table column image n, op = .addColumn table column →
    OrdMap.find table s.tables = some image → image.data ≠ [] → column.autoIncrement = true →
      column.default = some (.value (.i64 n)) → nextI64 n ≤ s.loadSeq table

section Kept

variable {s s' : CatState} {env : Env} {fuel : Nat} {table : String} {op : JobOp}

/-- A cascade touches no sequence. -/
theorem applyCascade_seqs {tables : List TableDef} {plan : Cascade}
    (h : applyCascade s tables plan = .ok s') : s'.seqs = s.seqs := by
  obtain ⟨s₁, hdel, hrew⟩ := Result.bind_eq_ok.1 h
  have hs₁ : s₁.seqs = s.seqs := by
    apply Result.foldlM_invariant (I := fun s₁ => s₁.seqs = s.seqs) hdel rfl
    intro d _ s₂ s₃ hs₂ hf
    split at hf
    · cases hf
      exact hs₂
    · obtain ⟨_, _, _, rfl, -⟩ := deleteRowIndexed_rows hf
      exact hs₂
  apply Result.foldlM_invariant (I := fun s₁ => s₁.seqs = s.seqs) hrew hs₁
  intro r _ s₂ s₃ hs₂ hf
  split at hf
  · cases hf
    exact hs₂
  · obtain ⟨_, _, _, _, rfl, -⟩ := rewriteRowIndexed_rows hf
    exact hs₂

theorem Change.seqs {image : TableImage} {deltas : List RowDelta} {referential : Option Cascade}
    (h : Change fuel s table image deltas referential s') : s'.seqs = s.seqs := by
  obtain ⟨image', -, happly⟩ := Result.bind_eq_ok.1 h.applied
  cases referential with
  | none =>
    cases happly
    rfl
  | some plan => exact applyCascade_seqs (s := s.store table image') happly

theorem loadSeq_congr (h : s'.seqs = s.seqs) : s'.loadSeq = s.loadSeq := by
  funext t
  rw [CatState.loadSeq, CatState.loadSeq, h]

/-- An edit whose new rows are below the sequence. -/
theorem CatState.SeqAhead.edited (h : s.SeqAhead) {seq : String → Int64}
    (hs : s.Edited (StoredBelow seq) s') (hseq : s'.loadSeq = seq)
    (hle : ∀ t image, OrdMap.find t s.tables = some image →
      image.def_.columns.any (fun c => c.autoIncrement) = true →
        s.loadSeq image.def_.name ≤ seq image.def_.name) : s'.SeqAhead := by
  intro t b hb e he
  obtain ⟨a, ha, hab⟩ := hs.back hb
  rw [hab.def_eq, hseq]
  rcases hab.rows e he with he | he
  · intro row hrow ci col n hcol hauto hv
    have hany : a.def_.columns.any (fun c => c.autoIncrement) = true :=
      List.any_eq_true.2 ⟨col, List.mem_of_getElem? hcol, hauto⟩
    exact int64_le_trans (h t a ha e he row hrow ci col n hcol hauto hv) (hle t a ha hany)
  · exact he

/-- The rows staged for an insert are below the sequence they lead to. -/
theorem stagedRows_below {image : TableImage} {input : List (List (String × Value))}
    {seq : Int64} {st : Staged}
    (h : input.foldlM (stageRow env s image) ⟨[], [], seq⟩ = .ok st) :
    seq ≤ st.seq ∧ ∀ r ∈ st.rows, image.def_.BelowSeq st.seq r.row := by
  apply Result.foldlM_invariant (I := fun st => seq ≤ st.seq ∧ ∀ r ∈ st.rows,
    image.def_.BelowSeq st.seq r.row) h
    ⟨int64_le_refl _, fun r hr => absurd hr List.not_mem_nil⟩
  intro provided _ st st' hst hstage
  obtain ⟨r', hr', hrows, -⟩ := stageRow_eq_ok hstage
  obtain ⟨hle, hbelow, -⟩ := buildRow_seq hr'.built
  refine ⟨int64_le_trans hst.1 hle, ?_⟩
  intro r hr
  rw [hrows] at hr
  rcases List.mem_append.1 hr with hr | hr
  · exact (hst.2 r hr).mono hle
  · rw [List.mem_singleton.1 hr]
    exact hbelow

/-- A staged row reads as it was built. -/
theorem stagedRows_read {image : TableImage} {input : List (List (String × Value))}
    {seq : Int64} {st : Staged}
    (h : input.foldlM (stageRow env s image) ⟨[], [], seq⟩ = .ok st) :
    ∀ r ∈ st.rows, decodePadded image.def_ r.bytes = .ok r.row := by
  apply Result.foldlM_invariant (I := fun st => ∀ r ∈ st.rows,
    decodePadded image.def_ r.bytes = .ok r.row) h (fun r hr => absurd hr List.not_mem_nil)
  intro provided _ st st' hst hstage r hr
  obtain ⟨r', hr', hrows, -⟩ := stageRow_eq_ok hstage
  rw [hrows] at hr
  rcases List.mem_append.1 hr with hr | hr
  · exact hst r hr
  · rw [List.mem_singleton.1 hr]
    exact decodePadded_encodeRow hr'.encoded (buildRow_eq_ok hr'.built).1.length

/-- A closure leaves values below the sequence. -/
theorem meets_storedBelow (hs : s.Sound) {plan : Cascade}
    {seeds : List (String × Bytes × List Value)}
    {changes : List (String × List Value × List Value)}
    (hplan : planCascade s s.allTables fuel seeds changes = .ok plan)
    (h : ∀ r ∈ plan.rewrites, ∀ image, OrdMap.find (ofLex r.1).1 s.tables = some image →
      image.def_.BelowSeq (s.loadSeq (ofLex r.1).1) r.2.2) :
    plan.Meets (StoredBelow s.loadSeq) s s.allTables := by
  intro r hr def_ hdef image bytes himage hbytes row hrow
  obtain ⟨image', hof⟩ := planCascade_rewriteOf hs.wellFormed hs.inOrder hplan r hr
  have hname : def_.name = (ofLex r.1).1 := by simpa using List.find?_some hdef
  rw [hname] at himage
  cases hof.found.symm.trans himage
  obtain ⟨_, -, hdec⟩ := hof.stored
  rw [decodePadded_encodeRow hbytes (hof.length.trans (decodePadded_length hdec))] at hrow
  cases hrow
  rw [(hs.wellFormed.tables _ _ himage).named]
  exact h r hr image himage

/-- The sequence after an insert. -/
theorem insert_loadSeq {image : TableImage} {input : List (List (String × Value))}
    {rows : List (List Value)} {st : Staged}
    (himage : OrdMap.find table s.tables = some image) (hname : image.def_.name = table)
    (hst : input.foldlM (stageRow env s image) ⟨[], [], startSeq s image.def_⟩ = .ok st)
    (h : insert env s table input = .ok (rows, s')) :
    (∀ t, t ≠ table → s'.loadSeq t = s.loadSeq t) ∧
      (image.def_.columns.any (fun c => c.autoIncrement) = true →
        s.loadSeq table ≤ st.seq ∧ s'.loadSeq table = st.seq) := by
  obtain ⟨image₁, st₁, image', himage₁, hst₁, -, hs'⟩ := insert_eq_ok h
  cases himage.symm.trans himage₁
  cases hst.symm.trans hst₁
  have hstored : ∀ seq t, ((s.store table image').storeSeq table seq).loadSeq t =
      if table = t then seq else s.loadSeq t := by
    intro seq t
    show (OrdMap.find t (OrdMap.insert table seq s.seqs)).getD 1 = _
    rw [OrdMap.find_insert]
    split <;> rfl
  constructor
  · intro t ht
    rw [hs']
    split
    · rw [hstored, if_neg (fun heq => ht heq.symm)]
    · rfl
  · intro hauto
    have hstart : startSeq s image.def_ = s.loadSeq table := by
      rw [startSeq, if_pos hauto, hname]
    have hle := (stagedRows_below hst).1
    rw [hstart] at hle hs'
    refine ⟨hle, ?_⟩
    rw [hs']
    split
    · rw [hstored, if_pos rfl]
    · next heq => exact (not_not.1 heq).symm

/-- A row job keeps the values below their sequences. -/
theorem Statement.seqAhead (hs : s.Sound) (hC : StaysBelowSeq env fuel s op)
    (h : Statement env fuel s op s') (ha : s.SeqAhead) : s'.SeqAhead := by
  cases h with
  | @insert table input rows _ h =>
    obtain ⟨image, st, -, himage, hst, -, -⟩ := insert_eq_ok h
    have hname := (hs.wellFormed.tables _ _ himage).named
    obtain ⟨hother, hself⟩ := insert_loadSeq himage hname hst h
    refine ha.edited (?_ : s.Edited (StoredBelow s'.loadSeq) s') rfl ?_
    rotate_left
    · intro t a hta hauto
      rw [(hs.wellFormed.tables _ _ hta).named]
      by_cases ht : t = table
      · subst ht
        cases himage.symm.trans hta
        rw [(hself hauto).2]
        exact (hself hauto).1
      · rw [hother t ht]
        exact int64_le_refl _
    · apply insert_edited h
      intro image' st' himage' hst' r hr row hrow
      cases himage.symm.trans himage'
      cases hst.symm.trans hst'
      -- the staged rows are below the sequence the insert stores
      have hbelow := (stagedRows_below hst).2 r hr
      cases (stagedRows_read hst r hr).symm.trans hrow
      intro ci col n hcol hauto hv
      have hany : image.def_.columns.any (fun c => c.autoIncrement) = true :=
        List.any_eq_true.2 ⟨col, List.mem_of_getElem? hcol, hauto⟩
      rw [hname, (hself hany).2]
      exact hbelow ci col n hcol hauto hv
  | @change _ table image deltas referential _ htargets h =>
    have hseq := loadSeq_congr h.seqs
    refine ha.edited ?_ hseq (fun _ _ _ _ => int64_le_refl _)
    apply h.edited
    · intro d hd row hrow
      cases (h.rows d hd).reads.symm.trans hrow
      rw [(hs.wellFormed.tables _ _ h.found).named]
      exact hC.1 _ _ _ h.found htargets d hd
    · intro plan hplan
      subst hplan
      exact meets_storedBelow hs (planReferential_eq_ok h.planned).1
        (hC.2.1 plan (h.plans htargets))
  | removal hfound hseeds h =>
    have hseq := loadSeq_congr (applyCascade_seqs h.applied)
    refine ha.edited ?_ hseq (fun _ _ _ _ => int64_le_refl _)
    apply h.edited
    exact meets_storedBelow hs h.planned (hC.2.1 _ (h.plans hfound hseeds))
  | idle => exact ha

theorem padding_eq_i64 {col : ColumnDef} {n : Int64} (h : col.padding = .i64 n) :
    col.default = some (.value (.i64 n)) := by
  unfold ColumnDef.padding at h
  split at h
  · next v hv => rw [hv, h]
  · cases h

/-- A definition job keeps the values below their sequences. -/
theorem Definition.seqAhead (hs : s.Sound) (hC : StaysBelowSeq env fuel s op)
    (h : Definition s op s') (ha : s.SeqAhead) : s'.SeqAhead := by
  cases h with
  | @create _ d _ _ _ _ hfresh htables hseqs =>
    intro t image himage e he
    rw [htables, OrdMap.find_insert] at himage
    split at himage
    -- a new table has no row to be below anything
    · cases himage
      cases he
    · next hne =>
      have hname := (hs.wellFormed.tables _ _ himage).named
      intro row hrow
      have hseq : s'.loadSeq image.def_.name = s.loadSeq image.def_.name := by
        rw [CatState.loadSeq, hseqs, hname]
        split
        · rw [OrdMap.find_insert, if_neg hne]
          rfl
        · rfl
      rw [hseq]
      exact ha t image himage e he row hrow
  | @drop t =>
    intro t' image himage e he
    change OrdMap.find t' (OrdMap.erase t s.tables) = some image at himage
    rw [OrdMap.find_erase] at himage
    split at himage
    · cases himage
    · next hne =>
      have hname := (hs.wellFormed.tables _ _ himage).named
      intro row hrow
      have hseq : (⟨OrdMap.erase t s.tables, OrdMap.erase t s.seqs⟩ : CatState).loadSeq
          image.def_.name = s.loadSeq image.def_.name := by
        show (OrdMap.find _ (OrdMap.erase t s.seqs)).getD 1 = _
        rw [OrdMap.find_erase, hname, if_neg hne]
        rfl
      rw [hseq]
      exact ha t' image himage e he row hrow
  | @alter _ t a b hfound hab =>
    intro t' image himage e he row hrow
    rw [CatState.find_store] at himage
    split at himage
    · next ht =>
      cases himage
      rw [hab.data] at he
      -- the rows stay as they are stored, so each is read as the old row, padded or not
      obtain ⟨old, hold⟩ := hs.readable t a hfound e he
      have hbelow := ha t a hfound e he old hold
      rw [hab.name]
      show b.def_.BelowSeq (s.loadSeq a.def_.name) row
      rcases hab.columns with hcols | ⟨column, hop, hcols, -, -⟩
      · have hsame : decodePadded b.def_ e.2 = .ok old := by
          rw [decodePadded, hcols]
          exact hold
        cases hrow.symm.trans hsame
        intro ci col n hcol
        rw [hcols] at hcol
        exact hbelow ci col n hcol
      · cases hrow.symm.trans (decodePadded_widen hcols hold)
        have hlen := decodePadded_length hold
        intro ci col n hcol hauto hv
        rw [hcols] at hcol
        by_cases hci : ci < a.def_.columns.length
        · rw [List.getElem?_append_left hci] at hcol
          rw [List.getElem?_append_left (hlen ▸ hci)] at hv
          exact hbelow ci col n hcol hauto hv
        -- the added column itself: the condition keeps its padding below the sequence
        · have hge : a.def_.columns.length ≤ ci := Nat.le_of_not_lt hci
          rw [List.getElem?_append_right hge] at hcol
          rw [List.getElem?_append_right (hlen ▸ hge), hlen] at hv
          have hzero : ci - a.def_.columns.length = 0 := by
            have := (List.getElem?_eq_some_iff.1 hcol).1
            rw [List.length_singleton] at this
            omega
          rw [hzero] at hcol hv
          cases hcol
          rw [(hs.wellFormed.tables _ _ hfound).named]
          exact hC.2.2 t column a n hop hfound (List.ne_nil_of_mem he) hauto
            (padding_eq_i64 (Option.some.inj hv))
    · exact ha t' image himage e he row hrow

theorem seqAhead_kept : Keeps StaysBelowSeq (fun s => s.Sound ∧ s.SeqAhead) := by
  intro envs fuel s op out s' hb hC h hs
  refine ⟨sound_kept (C := fun _ _ _ _ => True) envs fuel s op out s' hb trivial h hs.1, ?_⟩
  cases hop : op.isDefinition with
  | false => exact (apply_statement hop hb h).seqAhead hs.1 hC hs.2
  | true => exact (apply_definition hop h).seqAhead hs.1 hC hs.2

end Kept

/-- A value of a column: of a stored row, or of a row staged before in the statement. -/
def Held (image : TableImage) (st : Staged) (ci : Nat) (v : Value) : Prop :=
  (∃ e ∈ image.data, ∃ row, decodePadded image.def_ e.2 = .ok row ∧ row[ci]? = some v) ∨
    ∃ r ∈ st.rows, r.row[ci]? = some v

/-- **Auto-increment.** In every state of a run that brings no value at or above a sequence into
an auto-increment column other than by inserting it, a value generated for such a column differs
from every value stored in the column and from those of the rows built before in the statement,
if and only if none of these is the largest number. -/
theorem generated_fresh_iff {ops : List JobOp} {s : CatState} (h : RunWhere StaysBelowSeq ops s)
    {table : String} {image : TableImage} (himage : OrdMap.find table s.tables = some image)
    {env : Env} {before : List (List (String × Value))} {st : Staged}
    (hst : before.foldlM (stageRow env s image) ⟨[], [], startSeq s image.def_⟩ = .ok st)
    {provided : List (String × Value)} {row : List Value} {seq : Int64}
    (hrow : buildRow env st.rows.length image.def_ provided st.seq = .ok (row, seq))
    {ci : Nat} {col : ColumnDef} (hcol : image.def_.columns[ci]? = some col)
    (hauto : col.autoIncrement = true) (hgen : ∀ p ∈ provided, p.1 ≠ col.name) :
    ∃ n, row[ci]? = some (.i64 n) ∧
      (¬ Held image st ci (.i64 n) ↔ ¬ Held image st ci (.i64 Int64.maxValue)) := by
  obtain ⟨hs, hahead⟩ := RunWhere.induct seqAhead_kept
    ⟨sound_empty, (fun t image himage => by cases himage)⟩ h
  have hstart : startSeq s image.def_ = s.loadSeq image.def_.name := by
    rw [startSeq, if_pos (List.any_eq_true.2 ⟨col, List.mem_of_getElem? hcol, hauto⟩)]
  obtain ⟨n, hn, hle⟩ := (buildRow_seq hrow).2.2 ci col hcol hauto hgen
  obtain ⟨hseq, hstaged⟩ := stagedRows_below hst
  have hbelow : ∀ m, Held image st ci (.i64 m) → nextI64 m ≤ n := by
    rintro m (⟨e, he, old, hold, hv⟩ | ⟨r, hr, hv⟩)
    · rw [hstart] at hseq
      have hm := hahead table image himage e he old hold ci col m hcol hauto hv
      exact int64_le_trans hm (int64_le_trans hseq hle)
    · exact int64_le_trans (hstaged r hr ci col m hcol hauto hv) hle
  refine ⟨n, hn, not_congr ⟨?_, ?_⟩⟩
  · intro hheld
    have hmax := nextI64_le_self (hbelow n hheld)
    rwa [hmax] at hheld
  · intro hheld
    have hmax := eq_maxValue_of_le (v := n) (int64_le_trans (le_nextI64 _) (hbelow _ hheld))
    rwa [hmax]

/-! ### Tickets -/

/-- Tickets numbered by the sequence. -/
def ticketsDef : TableDef :=
  ⟨"tickets", [ColumnDef.new "id" .i64, { ColumnDef.new "no" .i64 with autoIncrement := true }],
    ["id"], [], [], []⟩

/-- One numbered ticket. -/
def oneTicket : List JobOp := [.createTable ticketsDef, .insert "tickets" [[("id", .i64 1)]]]

/-- The table, and the row a second ticket would be. -/
def nextTicket (s : CatState) : Option (TableImage × List Value × Int64) :=
  (OrdMap.find "tickets" s.tables).bind (fun image =>
    (buildRow (tickingEnv 0) 0 image.def_ [("id", .i64 2)] (startSeq s image.def_)).toOption.map
      (fun built => (image, built)))

theorem nextTicket_eq_some {s : CatState} {image : TableImage} {row : List Value} {seq : Int64}
    (h : nextTicket s = some (image, row, seq)) :
    OrdMap.find "tickets" s.tables = some image ∧
      buildRow (tickingEnv 0) 0 image.def_ [("id", .i64 2)] (startSeq s image.def_) =
        .ok (row, seq) := by
  obtain ⟨image', himage, h⟩ := Option.bind_eq_some_iff.1 h
  obtain ⟨built, hbuilt, heq⟩ := Option.map_eq_some_iff.1 h
  cases heq
  exact ⟨himage, Result.toOption_eq_some hbuilt⟩

/-- The numbers of the stored tickets. -/
def ticketNumbers (image : TableImage) : List (Option Value) :=
  image.data.map (fun e => (decodePadded image.def_ e.2).toOption.bind (fun row => row[1]?))

theorem held_ticket {image : TableImage} {seq : Int64} {v : Value} :
    Held image ⟨[], [], seq⟩ 1 v ↔ some v ∈ ticketNumbers image := by
  rw [ticketNumbers, List.mem_map]
  constructor
  · rintro (⟨e, he, row, hrow, hv⟩ | ⟨r, hr, -⟩)
    · refine ⟨e, he, ?_⟩
      rw [hrow]
      exact hv
    · cases hr
  · rintro ⟨e, he, hv⟩
    obtain ⟨row, hrow, hv⟩ := Option.bind_eq_some_iff.1 hv
    exact .inl ⟨e, he, row, Result.toOption_eq_some hrow, hv⟩

/-- A second ticket can be built, and no number is the largest. -/
def numbersLeft (s : CatState) : Bool :=
  (nextTicket s).any (fun t => t.1.def_.columns = ticketsDef.columns ∧
    some (.i64 Int64.maxValue) ∉ ticketNumbers t.1)

/-- A second ticket gets a number that is not taken. -/
theorem generated_fresh_ticket : ∃ s image row n, RunWhere StaysBelowSeq oneTicket s ∧
    OrdMap.find "tickets" s.tables = some image ∧
    (∃ seq, buildRow (tickingEnv 0) 0 image.def_ [("id", .i64 2)] (startSeq s image.def_) =
      .ok (row, seq)) ∧ row[1]? = some (.i64 n) ∧
    ¬ Held image ⟨[], [], startSeq s image.def_⟩ 1 (.i64 n) := by
  obtain ⟨s, hrun, htest⟩ := RunWhere.eval (C := StaysBelowSeq) tickingEnv 9 oneTicket
    numbersLeft
    (by
      intro op hop env s
      simp only [oneTicket, List.mem_cons, List.not_mem_nil, or_false] at hop
      rcases hop with rfl | rfl
      all_goals
        refine ⟨?_, ?_, ?_⟩
        · intro t image deltas _ htargets
          exact htargets.elim
        · rintro plan ⟨t, image, -, ⟨deltas, htargets, -⟩ | ⟨seeds, hseeds, -⟩⟩
          · exact htargets.elim
          · exact hseeds.elim
        · intro t column image n hop
          cases hop)
    (by decide +kernel)
  obtain ⟨⟨image, row, seq⟩, hnext, htest⟩ := (Option.any_eq_true _ _).1 htest
  obtain ⟨himage, hbuilt⟩ := nextTicket_eq_some hnext
  obtain ⟨hcols, hmax⟩ := of_decide_eq_true htest
  have hcol : image.def_.columns[1]? =
      some { ColumnDef.new "no" .i64 with autoIncrement := true } := by
    rw [hcols]
    rfl
  have hst : ([] : List (List (String × Value))).foldlM (stageRow (tickingEnv 0) s image)
      ⟨[], [], startSeq s image.def_⟩ = .ok ⟨[], [], startSeq s image.def_⟩ := rfl
  obtain ⟨n, hn, hfresh⟩ := generated_fresh_iff hrun himage hst hbuilt hcol rfl (by decide)
  exact ⟨s, image, row, n, hrun, himage, ⟨seq, hbuilt⟩, hn,
    hfresh.2 (fun hheld => hmax (held_ticket.1 hheld))⟩

/-- The first ticket, given the number the sequence is at. -/
def renumbered : List JobOp := oneTicket ++ [.update "tickets" [.i64 1] [("no", .i64 2)]]

/-- A second ticket gets the number of the first. -/
def numberTaken (s : CatState) : Bool :=
  (nextTicket s).any (fun t => t.2.1[1]? = some (.i64 2) ∧ some (.i64 2) ∈ ticketNumbers t.1)

/-- After an update of the first number, the second ticket gets the same one. -/
theorem renumbered_ticket_collides : ∃ s image row n,
    Run renumbered s ∧ OrdMap.find "tickets" s.tables = some image ∧
    (∃ seq, buildRow (tickingEnv 0) 0 image.def_ [("id", .i64 2)] (startSeq s image.def_) =
      .ok (row, seq)) ∧ row[1]? = some (.i64 n) ∧
    Held image ⟨[], [], startSeq s image.def_⟩ 1 (.i64 n) := by
  obtain ⟨s, hrun, htest⟩ := RunWhere.eval (C := fun _ _ _ _ => True) tickingEnv 9 renumbered
    numberTaken
    (by
      intro op hop env s
      simp only [renumbered, oneTicket, List.cons_append, List.nil_append, List.mem_cons,
        List.not_mem_nil, or_false] at hop
      rcases hop with rfl | rfl | rfl <;> trivial)
    (by decide +kernel)
  obtain ⟨⟨image, row, seq⟩, hnext, htest⟩ := (Option.any_eq_true _ _).1 htest
  obtain ⟨himage, hbuilt⟩ := nextTicket_eq_some hnext
  obtain ⟨hn, hheld⟩ := of_decide_eq_true htest
  exact ⟨s, image, row, 2, hrun.run, himage, ⟨seq, hbuilt⟩, hn, held_ticket.2 hheld⟩

end Edb.Catalog
