import Edb.Catalog.Run

/-!
# What row jobs may change

A row job leaves every definition as it is, and every row it leaves was there before or is
one it wrote. `Edited P` says so for a table and for a state, with `P` what is known of the
rows that were written; it is reflexive and transitive, so it passes through the loops of a
job step by step.
-/

namespace Edb.Catalog

open Edb.Types Edb.Lib

/-- A property of a row under its key, by the definition of its table. -/
abbrev RowProp := TableDef → Bytes → Bytes → Prop

variable {P : RowProp}

/-! ## Tables -/

/-- The definition and the index trees stay, and the rows are old ones or satisfy `P`. -/
structure TableImage.Edited (P : RowProp) (a b : TableImage) : Prop where
  def_eq : b.def_ = a.def_
  rows : ∀ e ∈ b.data, e ∈ a.data ∨ P a.def_ e.1 e.2
  trees : ∀ i, (OrdMap.find i b.indexes).isSome = (OrdMap.find i a.indexes).isSome

namespace TableImage.Edited

theorem refl (a : TableImage) : a.Edited P a :=
  ⟨rfl, fun _ he => .inl he, fun _ => rfl⟩

theorem trans {a b c : TableImage} (hab : a.Edited P b) (hbc : b.Edited P c) : a.Edited P c := by
  constructor
  · exact hbc.def_eq.trans hab.def_eq
  · intro e he
    rcases hbc.rows e he with he | he
    · exact hab.rows e he
    · rw [hab.def_eq] at he
      exact .inr he
  · intro i
    exact (hbc.trees i).trans (hab.trees i)

/-- A row is written. -/
theorem put {a : TableImage} {key bytes : Bytes} (hP : P a.def_ key bytes) :
    a.Edited P { a with data := OrdMap.insert key bytes a.data } := by
  refine ⟨rfl, ?_, fun _ => rfl⟩
  intro e he
  rcases OrdMap.mem_insert he with rfl | he
  · exact .inr hP
  · exact .inl he

/-- A row is removed. -/
theorem drop {a : TableImage} {key : Bytes} :
    a.Edited P { a with data := OrdMap.erase key a.data } := by
  refine ⟨rfl, ?_, fun _ => rfl⟩
  intro e he
  exact .inl (List.mem_of_mem_filter he)

end TableImage.Edited

/-- Changing an index tree changes nothing else. -/
theorem TableImage.editIndex_edited {a b : TableImage} {index : String}
    {edit : TreeContents → JobResult TreeContents} (h : a.editIndex index edit = .ok b) :
    a.Edited P b := by
  obtain ⟨tree, htree, h⟩ := Result.bind_eq_ok.1 h
  obtain ⟨tree', -, h⟩ := Result.bind_eq_ok.1 h
  cases h
  refine ⟨rfl, fun _ he => .inl he, ?_⟩
  intro i
  show (OrdMap.find i (OrdMap.insert index tree' a.indexes)).isSome = _
  rw [OrdMap.find_insert]
  split
  · next hi =>
    subst hi
    rw [TableImage.indexTree_eq_ok.1 htree]
    rfl
  · rfl

theorem removeEntry_edited {a b : TableImage} {idx : IndexDef} {e : Option Entry}
    (h : removeEntry a idx e = .ok b) : a.Edited P b := by
  cases e with
  | none =>
    cases h
    exact .refl _
  | some e => exact TableImage.editIndex_edited h

theorem insertEntry_edited {a b : TableImage} {idx : IndexDef} {e : Option Entry}
    (h : insertEntry a idx e = .ok b) : a.Edited P b := by
  cases e with
  | none =>
    cases h
    exact .refl _
  | some e => exact TableImage.editIndex_edited h

theorem moveEntry_edited {a b : TableImage} {idx : IndexDef} {oldE newE : Option Entry}
    (h : moveEntry a idx oldE newE = .ok b) : a.Edited P b := by
  obtain ⟨c, hc, h⟩ := Result.bind_eq_ok.1 h
  exact (removeEntry_edited hc).trans (insertEntry_edited h)

theorem treeInsert_eq_ok {key value : Bytes} {tree tree' : TreeContents}
    (h : treeInsert key value tree = .ok tree') : tree' = OrdMap.insert key value tree := by
  obtain ⟨_, -, h⟩ := Result.bind_eq_ok.1 h
  cases h
  rfl

/-- A loop over a table's image edits it when every round does. -/
theorem TableImage.foldlM_edited {α : Type} {f : TableImage → α → JobResult TableImage}
    {l : List α} {a b : TableImage} (h : l.foldlM f a = .ok b)
    (hstep : ∀ x ∈ l, ∀ b c, b.def_ = a.def_ → f b x = .ok c → b.Edited P c) : a.Edited P b := by
  apply Result.foldlM_invariant (I := fun b => a.Edited P b) h (.refl a)
  intro x hx b c hb hc
  exact hb.trans (hstep x hx b c hb.def_eq hc)

theorem applyStaged_edited {a b : TableImage} {r : StagedRow} (hP : P a.def_ r.pkKey r.bytes)
    (h : applyStaged a r = .ok b) : a.Edited P b := by
  obtain ⟨data, hdata, h⟩ := Result.bind_eq_ok.1 h
  rw [treeInsert_eq_ok hdata] at h
  apply (TableImage.Edited.put hP).trans
  apply TableImage.foldlM_edited h
  intro e _ b c _ hc
  exact insertEntry_edited hc

theorem applyDelta_edited {a b : TableImage} {d : RowDelta} (hP : P a.def_ d.pkKey d.bytes)
    (h : applyDelta a d = .ok b) : a.Edited P b := by
  obtain ⟨data, hdata, h⟩ := Result.bind_eq_ok.1 h
  rw [treeInsert_eq_ok hdata] at h
  apply (TableImage.Edited.put hP).trans
  apply TableImage.foldlM_edited h
  intro m _ b c _ hc
  exact moveEntry_edited hc

/-! ## States -/

/-- Every table is an edit of the table there was. -/
structure CatState.Edited (P : RowProp) (s s' : CatState) : Prop where
  some : ∀ t a, OrdMap.find t s.tables = .some a →
    ∃ b, OrdMap.find t s'.tables = .some b ∧ a.Edited P b
  none : ∀ t, OrdMap.find t s.tables = .none → OrdMap.find t s'.tables = .none
  sorted : OrdMap.Sorted s.tables → OrdMap.Sorted s'.tables

namespace CatState.Edited

theorem refl (s : CatState) : s.Edited P s :=
  ⟨fun _ a ha => ⟨a, ha, .refl a⟩, fun _ h => h, fun h => h⟩

theorem trans {s s' s'' : CatState} (h : s.Edited P s') (h' : s'.Edited P s'') :
    s.Edited P s'' := by
  constructor
  · intro t a ha
    obtain ⟨b, hb, hab⟩ := h.some t a ha
    obtain ⟨c, hc, hbc⟩ := h'.some t b hb
    exact ⟨c, hc, hab.trans hbc⟩
  · intro t ht
    exact h'.none t (h.none t ht)
  · intro hs
    exact h'.sorted (h.sorted hs)

/-- A table of the edited state comes from one of the state before. -/
theorem back {s s' : CatState} (h : s.Edited P s') {t : String} {b : TableImage}
    (hb : OrdMap.find t s'.tables = .some b) :
    ∃ a, OrdMap.find t s.tables = .some a ∧ a.Edited P b := by
  cases ha : OrdMap.find t s.tables with
  | none =>
    rw [h.none t ha] at hb
    cases hb
  | some a =>
    obtain ⟨b', hb', hab⟩ := h.some t a ha
    cases hb.symm.trans hb'
    exact ⟨a, rfl, hab⟩

theorem store {s : CatState} {t : String} {a b : TableImage}
    (ha : OrdMap.find t s.tables = .some a) (hab : a.Edited P b) : s.Edited P (s.store t b) := by
  constructor
  · intro u c hc
    show ∃ d, OrdMap.find u (OrdMap.insert t b s.tables) = _ ∧ _
    rw [OrdMap.find_insert]
    split
    · next hu =>
      subst hu
      cases ha.symm.trans hc
      exact ⟨b, rfl, hab⟩
    · exact ⟨c, hc, .refl c⟩
  · intro u hu
    show OrdMap.find u (OrdMap.insert t b s.tables) = _
    rw [OrdMap.find_insert]
    split
    · next htu =>
      subst htu
      rw [ha] at hu
      cases hu
    · exact hu
  · intro hs
    exact hs.insert

theorem storeSeq {s s' : CatState} (h : s.Edited P s') (t : String) (seq : Int64) :
    s.Edited P (s'.storeSeq t seq) :=
  ⟨h.some, h.none, h.sorted⟩

end CatState.Edited

/-! ## Jobs -/

section Jobs

variable {s s' : CatState}

/-- Deleting a row edits its table. -/
theorem deleteRowIndexed_edited {def_ : TableDef} {pkKey : Bytes} {row : List Value}
    (h : deleteRowIndexed s def_ pkKey row = .ok s') : s.Edited P s' := by
  obtain ⟨image, himage, h⟩ := Result.bind_eq_ok.1 h
  obtain ⟨_, -, h⟩ := Result.bind_eq_ok.1 h
  obtain ⟨image', himage', h⟩ := Result.bind_eq_ok.1 h
  cases h
  apply CatState.Edited.store (CatState.load_eq_ok.1 himage)
  apply TableImage.Edited.drop.trans
  apply TableImage.foldlM_edited himage'
  intro idx _ b c _ hc
  obtain ⟨e, -, hc⟩ := Result.bind_eq_ok.1 hc
  exact removeEntry_edited hc

/-- What is known of a row when it is rewritten. -/
def RewriteMeets (P : RowProp) (s : CatState) (def_ : TableDef) (pkKey : Bytes)
    (newRow : List Value) : Prop :=
  ∀ image bytes, OrdMap.find def_.name s.tables = some image → encodeRow newRow = .ok bytes →
    P image.def_ pkKey bytes

/-- Rewriting a row edits its table. -/
theorem rewriteRowIndexed_edited {def_ : TableDef} {pkKey : Bytes} {oldRow newRow : List Value}
    (hP : RewriteMeets P s def_ pkKey newRow)
    (h : rewriteRowIndexed s def_ pkKey oldRow newRow = .ok s') : s.Edited P s' := by
  obtain ⟨image, himage, h⟩ := Result.bind_eq_ok.1 h
  obtain ⟨_, -, h⟩ := Result.bind_eq_ok.1 h
  obtain ⟨bytes, hbytes, h⟩ := Result.bind_eq_ok.1 h
  obtain ⟨data, hdata, h⟩ := Result.bind_eq_ok.1 h
  obtain ⟨image', himage', h⟩ := Result.bind_eq_ok.1 h
  cases h
  rw [CatState.load_eq_ok] at himage
  rw [rej_eq_ok, ofType_eq_ok] at hbytes
  rw [treeInsert_eq_ok hdata] at himage'
  apply CatState.Edited.store himage
  apply (TableImage.Edited.put (hP image bytes himage hbytes)).trans
  apply TableImage.foldlM_edited himage'
  intro idx _ b c _ hc
  obtain ⟨m, -, hc⟩ := Result.bind_eq_ok.1 hc
  split at hc
  · cases hc
    exact .refl _
  · exact moveEntry_edited hc

/-- What is known of every row a closure rewrites. -/
def Cascade.Meets (P : RowProp) (s : CatState) (tables : List TableDef) (plan : Cascade) : Prop :=
  ∀ r ∈ plan.rewrites, ∀ def_, tables.find? (fun t => t.name = (ofLex r.1).1) = some def_ →
    RewriteMeets P s def_ (ofLex r.1).2 r.2.2

theorem Cascade.Meets.edited {tables : List TableDef} {plan : Cascade} (hs : s.Edited P s')
    (h : plan.Meets P s tables) : plan.Meets P s' tables := by
  intro r hr def_ hdef image bytes himage hbytes
  obtain ⟨a, ha, hab⟩ := hs.back himage
  rw [hab.def_eq]
  exact h r hr def_ hdef a bytes ha hbytes

/-- A loop over states edits them when every round does. -/
theorem CatState.foldlM_edited {α : Type} {f : CatState → α → JobResult CatState}
    {l : List α} (h : l.foldlM f s = .ok s')
    (hstep : ∀ x ∈ l, ∀ s₁ s₂, s.Edited P s₁ → f s₁ x = .ok s₂ → s₁.Edited P s₂) :
    s.Edited P s' := by
  apply Result.foldlM_invariant (I := fun s₁ => s.Edited P s₁) h (.refl s)
  intro x hx s₁ s₂ hs hf
  exact hs.trans (hstep x hx s₁ s₂ hs hf)

/-- Applying a cascade edits the tables of its rows. -/
theorem applyCascade_edited {tables : List TableDef} {plan : Cascade}
    (hP : plan.Meets P s tables) (h : applyCascade s tables plan = .ok s') : s.Edited P s' := by
  obtain ⟨s₁, hdel, hrew⟩ := Result.bind_eq_ok.1 h
  have hs₁ : s.Edited P s₁ := by
    apply CatState.foldlM_edited hdel
    intro d _ s₂ s₃ _ hf
    split at hf
    · cases hf
      exact .refl _
    · exact deleteRowIndexed_edited hf
  apply hs₁.trans
  apply CatState.foldlM_edited hrew
  intro r hr s₂ s₃ hs₂ hf
  split at hf
  · cases hf
    exact .refl _
  · next def_ hdef =>
    exact rewriteRowIndexed_edited ((hP.edited hs₁).edited hs₂ r hr def_ hdef) hf

/-- An insert edits its table. -/
theorem insert_edited {env : Env} {table : String} {input : List (List (String × Value))}
    {rows : List (List Value)} (h : insert env s table input = .ok (rows, s'))
    (hP : ∀ image st, OrdMap.find table s.tables = some image →
      input.foldlM (stageRow env s image) ⟨[], [], startSeq s image.def_⟩ = .ok st →
      ∀ r ∈ st.rows, P image.def_ r.pkKey r.bytes) : s.Edited P s' := by
  obtain ⟨image, st, image', himage, hst, himage', hs'⟩ := insert_eq_ok h
  have hedit : s.Edited P (s.store table image') := by
    apply CatState.Edited.store himage
    apply TableImage.foldlM_edited himage'
    intro r hr b c hb hc
    apply applyStaged_edited _ hc
    rw [hb]
    exact hP image st himage hst r hr
  rw [hs']
  split
  · exact hedit.storeSeq _ _
  · exact hedit

variable {fuel : Nat} {table : String} {image : TableImage} {deltas : List RowDelta}
  {referential : Option Cascade}

/-- An update edits its table and those of its cascade. -/
theorem Change.edited (h : Change fuel s table image deltas referential s')
    (hrows : ∀ d ∈ deltas, P image.def_ d.pkKey d.bytes)
    (hplan : ∀ plan, referential = some plan → plan.Meets P s s.allTables) : s.Edited P s' := by
  obtain ⟨image', himage', happly⟩ := Result.bind_eq_ok.1 h.applied
  have hedit : s.Edited P (s.store table image') := by
    apply CatState.Edited.store h.found
    apply TableImage.foldlM_edited himage'
    intro d hd b c hb hc
    apply applyDelta_edited _ hc
    rw [hb]
    exact hrows d hd
  cases referential with
  | none =>
    cases happly
    exact hedit
  | some plan => exact hedit.trans (applyCascade_edited ((hplan plan rfl).edited hedit) happly)

theorem Removal.edited {seeds : List (String × Bytes × List Value)} {plan : Cascade}
    (h : Removal fuel s table seeds plan s') (hplan : plan.Meets P s s.allTables) :
    s.Edited P s' :=
  applyCascade_edited hplan h.applied

end Jobs

/-- The jobs that change definitions. -/
def JobOp.isDefinition : JobOp → Bool
  | .createTable _ => true
  | .dropTable _ => true
  | .addColumn .. => true
  | .createIndex .. => true
  | .dropIndex .. => true
  | _ => false

/-- A row job other than a batch keeps every definition. -/
theorem applyOne_edited {envs : Nat → Env} {fuel : Nat} {s s' : CatState} {op : JobOp}
    {out : JobOut} (hop : op.isDefinition = false) (hb : ∀ specs, op ≠ .batch specs)
    (h : apply envs fuel s op = .ok (out, s')) : s.Edited (fun _ _ _ => True) s' := by
  -- nothing is asked of the rows a plan rewrites
  have hplan : ∀ plan : Cascade, plan.Meets (fun _ _ _ => True) s s.allTables := by
    intro plan r _ def_ _ image bytes _ _
    trivial
  have hremoval : ∀ {table : String}, (s' = s ∨ ∃ seeds plan, Removal fuel s table seeds plan s') →
      s.Edited (fun _ _ _ => True) s' := by
    intro table h
    rcases h with rfl | ⟨seeds, plan, h⟩
    · exact .refl _
    · exact h.edited (hplan plan)
  cases op with
  | insert table rows =>
    obtain ⟨⟨rows', s₁⟩, h, hout⟩ := Result.bind_eq_ok.1 h
    cases hout
    exact insert_edited h (fun _ _ _ _ _ _ => trivial)
  | update table pk sets =>
    obtain ⟨⟨row, s₁⟩, h, hout⟩ := Result.bind_eq_ok.1 h
    cases hout
    obtain ⟨image, -, -, -, d, referential, -, h⟩ := update_eq_ok h
    exact h.edited (fun _ _ => trivial) (fun plan _ => hplan plan)
  | delete table pk =>
    obtain ⟨⟨done, s₁⟩, h, hout⟩ := Result.bind_eq_ok.1 h
    cases hout
    exact hremoval (delete_eq_ok h)
  | updateWhere table policy =>
    obtain ⟨⟨count, s₁⟩, h, hout⟩ := Result.bind_eq_ok.1 h
    cases hout
    obtain ⟨image, deltas, referential, -, h⟩ := updateWhere_eq_ok h
    exact h.edited (fun _ _ => trivial) (fun plan _ => hplan plan)
  | deleteWhere table filter =>
    obtain ⟨⟨count, s₁⟩, h, hout⟩ := Result.bind_eq_ok.1 h
    cases hout
    exact hremoval (deleteWhere_eq_ok h)
  | batch specs => exact absurd rfl (hb specs)
  | _ => cases hop

/-- One write of a batch keeps every definition. -/
theorem applySpec_edited {env : Env} {fuel : Nat} {s s' : CatState} {spec : WriteSpec} {count : Nat}
    (h : applySpec env fuel s spec = .ok (count, s')) : s.Edited (fun _ _ _ => True) s' := by
  obtain ⟨out, hout⟩ := apply_job h
  have hop : spec.job.isDefinition = false := by cases spec <;> rfl
  exact applyOne_edited hop spec.job_ne_batch hout

/-- A batch edits tables and no definition. -/
theorem batch_edited {envs : Nat → Env} {fuel i : Nat} {s s' : CatState} {specs : List WriteSpec}
    {counts : List Nat} (h : batch envs fuel i s specs = .ok (counts, s')) :
    s.Edited (fun _ _ _ => True) s' := by
  induction specs generalizing i s counts with
  | nil =>
    cases h
    exact .refl _
  | cons spec specs ih =>
    obtain ⟨⟨count, s₁⟩, hspec, h⟩ := Result.bind_eq_ok.1 h
    obtain ⟨⟨counts', s₂⟩, hrest, h⟩ := Result.bind_eq_ok.1 h
    cases h
    exact (applySpec_edited hspec).trans (ih hrest)

/-- A row job keeps every definition. -/
theorem apply_edited {envs : Nat → Env} {fuel : Nat} {s s' : CatState} {op : JobOp}
    {out : JobOut} (hop : op.isDefinition = false)
    (h : apply envs fuel s op = .ok (out, s')) : s.Edited (fun _ _ _ => True) s' := by
  by_cases hb : ∃ specs, op = .batch specs
  · obtain ⟨specs, rfl⟩ := hb
    obtain ⟨⟨counts, s₁⟩, hbatch, hout⟩ := Result.bind_eq_ok.1 h
    cases hout
    exact batch_edited hbatch
  · exact applyOne_edited hop (fun specs he => hb ⟨specs, he⟩) h

end Edb.Catalog
