import Edb.Catalog.Stored

/-!
# Updates and their own closure

The rows an update changes and the closure of the change are computed from the same stored rows
and written one after the other. A row that is both changed and rewritten ends as the rewrite
made it: the statement's own write of a column stands only where no action assigns the column,
and there only if the write left it as it was (`update_stores_iff`).
-/

namespace Edb.Catalog

open Edb.Types Edb.Lib

/-! ## Assigned columns -/

/-- A named column gets the value at the position of its name. -/
theorem setFkColumns_assigned {d : TableDef} {row : List Value} {names : List String}
    (vals : List Value) {ci : Nat} (hlt : ci < row.length)
    (h : ∃ name ∈ names, d.colIndex name = some ci) :
    ∃ (j : Nat) (name : String), names[j]? = some name ∧ d.colIndex name = some ci ∧
      (setFkColumns d row names vals)[ci]? = some (vals[j]?.getD .null) := by
  induction names generalizing row vals with
  | nil =>
    obtain ⟨name, hname, -⟩ := h
    cases hname
  | cons head names ih =>
    rw [setFkColumns]
    by_cases hrest : ∃ name ∈ names, d.colIndex name = some ci
    · obtain ⟨name, hname, hci⟩ := hrest
      cases hhead : d.colIndex head with
      | some cj =>
        have hset : ci < (row.set cj (vals.headD .null)).length := by
          rwa [List.length_set]
        obtain ⟨j, name, hj, hci, hval⟩ := ih vals.tail hset ⟨name, hname, hci⟩
        refine ⟨j + 1, name, hj, hci, hval.trans ?_⟩
        rw [List.getElem?_tail]
      | none =>
        obtain ⟨j, name, hj, hci, hval⟩ := ih vals.tail hlt ⟨name, hname, hci⟩
        refine ⟨j + 1, name, hj, hci, hval.trans ?_⟩
        rw [List.getElem?_tail]
    · obtain ⟨name, hname, hci⟩ := h
      have hhead : d.colIndex head = some ci := by
        rcases List.mem_cons.1 hname with rfl | hname
        · exact hci
        · exact absurd ⟨name, hname, hci⟩ hrest
      refine ⟨0, head, rfl, hhead, ?_⟩
      rw [hhead, setFkColumns_getElem? (fun n hn hcn => hrest ⟨n, hn, hcn⟩)]
      show (row.set ci (vals.headD .null))[ci]? = _
      rw [List.getElem?_set_self hlt]
      cases vals <;> rfl

section Assigned

variable {s : CatState}

/-- The action of a step assigns a value to a column of the row it meets. -/
def ChildStep.Assigns {tables : List TableDef} (c : ChildStep s tables) (ci : Nat) (v : Value) :
    Prop :=
  ∃ (j : Nat) (name : String), c.fk.columns[j]? = some name ∧ c.child.colIndex name = some ci ∧
    (rewrittenKey c.parent c.fk c.eff c.action)[j]?.getD .null = v

/-- An action of a closure assigns a value to a column of a row. -/
def Cascade.Assigns (s : CatState) (plan : Cascade) (t : String) (k : Bytes) (ci : Nat)
    (v : Value) : Prop :=
  ∃ c : ChildStep s s.allTables, c.eff ∈ plan.effects ∧ c.child.name = t ∧ c.pkKey = k ∧
    c.Assigns ci v

/-- A column of a rewritten row holds what an action of known effects assigned to it. -/
def AssignedBy (s : CatState) (known : CascadeEffect → Prop) (t : String) (k : Bytes)
    (w : List Value × List Value) (ci : Nat) : Prop :=
  ∃ (c : ChildStep s s.allTables) (v : Value), known c.eff ∧ c.child.name = t ∧ c.pkKey = k ∧
    c.Assigns ci v ∧ w.2[ci]? = some v

/-- The columns a step assigns hold assigned values. -/
def Settled (known : CascadeEffect → Prop) (plan : Cascade) (c : ChildStep s s.allTables) : Prop :=
  ∀ ci v, c.Assigns ci v → ∃ w, OrdMap.find (rowRef c.child c.pkKey) plan.rewrites = some w ∧
    AssignedBy s known c.child.name c.pkKey w ci

/-- Every column of a rewritten row is as it was stored, or holds an assigned value. -/
def RewritesAssigned (s : CatState) (known : CascadeEffect → Prop) (plan : Cascade) : Prop :=
  ∀ t k w, OrdMap.find (toLex (t, k)) plan.rewrites = some w →
    ∀ ci : Nat, w.2[ci]? = w.1[ci]? ∨ AssignedBy s known t k w ci

/-- What is known of a closure of changed rows at any time. -/
structure ChangesOnly (s : CatState) (plan : Cascade) (queue : List CascadeEffect) : Prop where
  deletes : plan.deletes = []
  queued : ∀ eff ∈ queue, eff.newRow ≠ none
  rewrites : ∀ r ∈ plan.rewrites, ∃ image, RewriteOf s image r

/-- A step of a closure of changed rows rewrites the row it meets. -/
theorem ChildStep.rewrites {plan : Cascade} {queue : List CascadeEffect}
    (c : ChildStep s s.allTables) (hp : ChangesOnly s plan queue) (heff : c.eff.newRow ≠ none) :
    ∃ new, c.plan plan = ({ plan with
      rewrites := OrdMap.insert (rowRef c.child c.pkKey)
        (c.row, rewritten c.parent c.child c.fk c.eff c.action plan c.pkKey c.row)
        plan.rewrites }, new) ∧ ∀ e ∈ new, e.newRow ≠ none := by
  rcases planChild_cases c.parent c.child c.fk c.eff c.action plan c.pkKey c.row with
    ⟨hdel, -⟩ | ⟨-, -, hnone, -⟩ | ⟨-, -, new, hplan, hnew⟩
  · rw [hp.deletes] at hdel
    cases hdel
  · exact absurd hnone heff
  · refine ⟨new, hplan, ?_⟩
    intro e he
    rw [hnew e he]
    exact Option.some_ne_none _

variable {plan : Cascade} {queue : List CascadeEffect} {known : CascadeEffect → Prop}

/-- The row a step meets after it: the columns the step assigns hold assigned values, the others
are as they were. -/
theorem ChildStep.rewritten_cell (hs : s.Sound) (c : ChildStep s s.allTables)
    (hp : ∀ r ∈ plan.rewrites, ∃ image, RewriteOf s image r) (ci : Nat) :
    (∃ v, c.Assigns ci v ∧
      (rewritten c.parent c.child c.fk c.eff c.action plan c.pkKey c.row)[ci]? = some v) ∨
    ((∀ v, ¬ c.Assigns ci v) ∧
      (rewritten c.parent c.child c.fk c.eff c.action plan c.pkKey c.row)[ci]? =
        (((OrdMap.find (rowRef c.child c.pkKey) plan.rewrites).map Prod.snd).getD c.row)[ci]?) := by
  obtain ⟨image, bytes, himage, hdef, hmem, hdec⟩ := c.stored hs.wellFormed
  obtain ⟨base, hbase, hlen, -, -⟩ := c.base hs.wellFormed hs.inOrder hp
  rw [rewritten, hbase]
  by_cases h : ∃ name ∈ c.fk.columns, c.child.colIndex name = some ci
  · have hlt : ci < base.length := by
      obtain ⟨name, -, hci⟩ := h
      rw [hlen, decodePadded_length hdec, hdef]
      exact TableDef.colIndex_lt hci
    obtain ⟨j, name, hj, hci, hval⟩ := setFkColumns_assigned
      (rewrittenKey c.parent c.fk c.eff c.action) hlt h
    exact .inl ⟨_, ⟨j, name, hj, hci, rfl⟩, hval⟩
  · refine .inr ⟨?_, setFkColumns_getElem? (fun name hname hci => h ⟨name, hname, hci⟩)⟩
    rintro v ⟨j, name, hj, hci, -⟩
    exact h ⟨name, List.mem_of_getElem? hj, hci⟩

/-- A step settles its own columns and keeps those of others settled. -/
theorem ChildStep.settles (known : CascadeEffect → Prop) (hs : s.Sound)
    (c : ChildStep s s.allTables) (hp : ChangesOnly s plan queue) (heff : c.eff.newRow ≠ none)
    (hknown : known c.eff) :
    Settled known (c.plan plan).1 c ∧
      ∀ c' : ChildStep s s.allTables, Settled known plan c' →
        Settled known (c.plan plan).1 c' := by
  obtain ⟨new, hplan, -⟩ := c.rewrites hp heff
  rw [hplan]
  -- a column of the row that this step assigns, or that was assigned before
  have hself : ∀ ci, (∃ v, c.Assigns ci v) ∨ (∃ w, OrdMap.find (rowRef c.child c.pkKey)
      plan.rewrites = some w ∧ AssignedBy s known c.child.name c.pkKey w ci) →
      AssignedBy s known c.child.name c.pkKey
        (c.row, rewritten c.parent c.child c.fk c.eff c.action plan c.pkKey c.row) ci := by
    intro ci h
    rcases c.rewritten_cell hs hp.rewrites ci with ⟨v, hv, hcell⟩ | ⟨hnone, hcell⟩
    · exact ⟨c, v, hknown, rfl, rfl, hv, hcell⟩
    · rcases h with ⟨v, hv⟩ | ⟨w, hw, c', v, hc', ht, hk, hv, hcell'⟩
      · exact absurd hv (hnone v)
      · refine ⟨c', v, hc', ht, hk, hv, hcell.trans ?_⟩
        rw [hw]
        exact hcell'
  constructor
  · intro ci v hv
    refine ⟨_, ?_, hself ci (.inl ⟨v, hv⟩)⟩
    rw [OrdMap.find_insert, if_pos rfl]
  · intro c' hc' ci v hv
    obtain ⟨w, hw, hby⟩ := hc' ci v hv
    by_cases href : rowRef c.child c.pkKey = rowRef c'.child c'.pkKey
    · refine ⟨_, by rw [OrdMap.find_insert, if_pos href], ?_⟩
      have hname : c.child.name = c'.child.name := congrArg (fun r => (ofLex r).1) href
      have hkey : c.pkKey = c'.pkKey := congrArg (fun r => (ofLex r).2) href
      rw [← hname, ← hkey]
      exact hself ci (.inr ⟨w, href ▸ hw, hname ▸ hkey ▸ hby⟩)
    · exact ⟨w, by rw [OrdMap.find_insert, if_neg href, hw], hby⟩

/-- A step keeps every column of a rewritten row stored or assigned. -/
theorem ChildStep.rewritesAssigned (hs : s.Sound) (c : ChildStep s s.allTables)
    (hp : ChangesOnly s plan queue) (heff : c.eff.newRow ≠ none) (hknown : known c.eff)
    (h : RewritesAssigned s known plan) : RewritesAssigned s known (c.plan plan).1 := by
  obtain ⟨new, hplan, -⟩ := c.rewrites hp heff
  rw [hplan]
  intro t k w hw ci
  rw [OrdMap.find_insert] at hw
  split at hw
  · next href =>
    cases hw
    have hname : c.child.name = t := congrArg (fun r => (ofLex r).1) href
    have hkey : c.pkKey = k := congrArg (fun r => (ofLex r).2) href
    subst hname
    subst hkey
    rcases c.rewritten_cell hs hp.rewrites ci with ⟨v, hv, hcell⟩ | ⟨-, hcell⟩
    · exact .inr ⟨c, v, hknown, rfl, rfl, hv, hcell⟩
    · obtain ⟨base, hbase, -, hfrom, -⟩ := c.base hs.wellFormed hs.inOrder hp.rewrites
      rw [hbase] at hcell
      rcases hfrom with ⟨-, rfl⟩ | hfrom
      · exact .inl hcell
      · rcases h _ _ _ hfrom ci with hsame | ⟨c', v, hc', ht, hk, hv, hcell'⟩
        · exact .inl (hcell.trans hsame)
        · exact .inr ⟨c', v, hc', ht, hk, hv, hcell.trans hcell'⟩
  · exact h t k w hw ci

/-- A step of an effect with a new row deletes nothing, and queues rewritten rows only. -/
theorem ChangesOnly.step (hs : s.Sound) (c : ChildStep s s.allTables)
    (hp : ChangesOnly s plan queue) (heff : c.eff.newRow ≠ none) :
    ChangesOnly s (c.plan plan).1 (queue ++ (c.plan plan).2) := by
  obtain ⟨new, hplan, hnew⟩ := c.rewrites hp heff
  rw [hplan]
  refine ⟨hp.deletes, ?_, ?_⟩
  · intro eff he
    rcases List.mem_append.1 he with he | he
    · exact hp.queued eff he
    · exact hnew eff he
  · intro r hr
    rcases OrdMap.mem_insert hr with rfl | hr
    · exact c.rewriteOf hs.wellFormed hs.inOrder hp.rewrites
    · exact hp.rewrites r hr

theorem AssignedBy.mono {known' : CascadeEffect → Prop}
    (hk : ∀ c : ChildStep s s.allTables, known c.eff → known' c.eff)
    {t : String} {k : Bytes} {w : List Value × List Value} {ci : Nat}
    (h : AssignedBy s known t k w ci) : AssignedBy s known' t k w ci := by
  obtain ⟨c, v, hc, h⟩ := h
  exact ⟨c, v, hk c hc, h⟩

/-- Between effects: what the recorded effects assigned stands. -/
structure Assigned (s : CatState) (known : CascadeEffect → Prop) (plan : Cascade)
    (queue : List CascadeEffect) : Prop where
  base : ChangesOnly s plan queue
  rewrites : RewritesAssigned s known plan
  settled : ∀ c : ChildStep s s.allTables, c.eff ∈ plan.effects → Settled known plan c

/-- The rule for the steps of one effect. -/
theorem assigned_steps (hs : s.Sound) : StepRule
    (fun eff plan queue => eff.newRow ≠ none ∧
      Assigned s (fun e => e ∈ plan.effects ∨ e = eff) plan queue)
    (fun (c : ChildStep s s.allTables) plan =>
      Settled (fun e => e ∈ plan.effects ∨ e = c.eff) plan c) := by
  have heffects : ∀ (c : ChildStep s s.allTables) (plan : Cascade) (queue : List CascadeEffect),
      ChangesOnly s plan queue → c.eff.newRow ≠ none →
        (c.plan plan).1.effects = plan.effects := by
    intro c plan queue hp heff
    obtain ⟨new, hplan, -⟩ := c.rewrites hp heff
    rw [hplan]
  constructor
  · rintro c plan queue ⟨heff, h⟩
    refine ⟨heff, h.base.step hs c heff, ?_, ?_⟩
    · rw [heffects c plan queue h.base heff]
      exact c.rewritesAssigned hs h.base heff (.inr rfl) h.rewrites
    · rw [heffects c plan queue h.base heff]
      intro c' hc'
      exact (c.settles (fun e => e ∈ plan.effects ∨ e = c.eff) hs h.base heff (.inr rfl)).2 c'
        (h.settled c' hc')
  · rintro c plan queue ⟨heff, h⟩
    rw [heffects c plan queue h.base heff]
    exact (c.settles _ hs h.base heff (.inr rfl)).1
  · rintro c c' plan queue heq ⟨heff, h⟩ hc
    rw [heffects c' plan queue h.base heff]
    exact (c'.settles _ hs h.base heff (.inr heq.symm)).2 c hc

/-- In a closure of changed rows every column of a rewritten row holds a value that an action of
the closure assigned to it, or no action assigns it and it is as it was stored. -/
theorem planCascade_assigned (hs : s.Sound) {fuel : Nat}
    {changes : List (String × List Value × List Value)}
    (h : planCascade s s.allTables fuel [] changes = .ok plan) {t : String} {k : Bytes}
    {w : List Value × List Value} (hw : OrdMap.find (toLex (t, k)) plan.rewrites = some w)
    (ci : Nat) :
    (∃ v, plan.Assigns s t k ci v ∧ w.2[ci]? = some v) ∨
      ((∀ v, ¬ plan.Assigns s t k ci v) ∧ w.2[ci]? = w.1[ci]?) := by
  -- during the loop a cell counts as assigned by an effect done or by the one in hand
  have hfinal : Assigned s (fun e => e ∈ plan.effects) plan [] := by
    apply (assigned_steps hs).planLoop (I := fun plan queue =>
      Assigned s (fun e => e ∈ plan.effects) plan queue) _ _ _ h
    · refine ⟨⟨rfl, ?_, ?_⟩, ?_, ?_⟩
      · intro eff heff
        obtain ⟨c, -, rfl⟩ := List.mem_map.1 heff
        exact Option.some_ne_none _
      · intro r hr
        cases hr
      · intro t k w hw
        cases hw
      · intro c hc
        cases hc
    · intro plan eff queue _ hI
      exact ⟨⟨hI.base.deletes, fun e he => hI.base.queued e (List.mem_cons_of_mem _ he),
        hI.base.rewrites⟩, hI.rewrites, hI.settled⟩
    · intro plan eff queue hI
      refine ⟨hI.base.queued eff (by simp), ⟨hI.base.deletes,
        fun e he => hI.base.queued e (List.mem_cons_of_mem _ he), hI.base.rewrites⟩, ?_, ?_⟩
      · intro t k w hw ci
        exact (hI.rewrites t k w hw ci).imp id (.mono (fun _ => .inl))
      · intro c hc ci v hv
        obtain ⟨w, hw, hby⟩ := hI.settled c hc ci v hv
        exact ⟨w, hw, hby.mono (fun _ => .inl)⟩
    · intro plan eff queue hJ hdid
      have hmem : ∀ e, e ∈ plan.effects ∨ e = eff → e ∈ plan.effects ++ [eff] := by
        intro e he
        rw [List.mem_append, List.mem_singleton]
        exact he
      refine ⟨⟨hJ.2.base.deletes, hJ.2.base.queued, hJ.2.base.rewrites⟩, ?_, ?_⟩
      · intro t k w hw ci
        exact (hJ.2.rewrites t k w hw ci).imp id (.mono (fun c => hmem c.eff))
      · intro c hc ci v hv
        rcases List.mem_append.1 hc with hc | hc
        · obtain ⟨w, hw, hby⟩ := hJ.2.settled c hc ci v hv
          exact ⟨w, hw, hby.mono (fun c => hmem c.eff)⟩
        · have heff := List.mem_singleton.1 hc
          obtain ⟨w, hw, hby⟩ := hdid c heff ci v hv
          rw [heff] at hby
          exact ⟨w, hw, hby.mono (fun c => hmem c.eff)⟩
  -- with the queue empty, every effect is done
  by_cases hassigned : ∃ v, plan.Assigns s t k ci v
  · obtain ⟨v, c, hc, rfl, rfl, hv⟩ := hassigned
    obtain ⟨w', hw', c', v', hc', ht, hk, hv', hcell⟩ := hfinal.settled c hc ci v hv
    cases hw.symm.trans hw'
    exact .inl ⟨v', ⟨c', hc', ht, hk, hv'⟩, hcell⟩
  · refine .inr ⟨fun v hv => hassigned ⟨v, hv⟩, ?_⟩
    rcases hfinal.rewrites t k w hw ci with hsame | ⟨c, v, hc, ht, hk, hv, -⟩
    · exact hsame
    · exact absurd ⟨v, c, hc, ht, hk, hv⟩ hassigned

end Assigned

/-! ## What an update stores -/

section Stores

variable {env : Env} {fuel : Nat} {s s' : CatState} {op : JobOp} {table : String}
  {image : TableImage} {deltas : List RowDelta}

/-- An update stores what it computed: a changed row has its computed values but in referencing
columns an action of the statement assigned, and another row of the table keeps its values
outside of referencing columns. -/
structure StoresComputed (env : Env) (fuel : Nat) (s : CatState) (op : JobOp) (s' : CatState)
    (table : String) (d : TableDef) (deltas : List RowDelta) : Prop where
  changed : ∀ delta ∈ deltas, ∃ bytes row, s'.rowAt table delta.pkKey = some bytes ∧
    decodePadded d bytes = .ok row ∧
    (∀ ci, ¬ d.IsFkColumn ci → row[ci]? = delta.newRow[ci]?) ∧
    ∀ ci, d.IsFkColumn ci → row[ci]? = delta.newRow[ci]? ∨ ∃ plan v, op.Plans env fuel s plan ∧
      plan.Assigns s table delta.pkKey ci v ∧ row[ci]? = some v
  others : ∀ k, (∀ delta ∈ deltas, delta.pkKey ≠ k) →
    (s'.rowAt table k).isSome = (s.rowAt table k).isSome ∧
    ∀ bytes bytes' row row', s.rowAt table k = some bytes → s'.rowAt table k = some bytes' →
      decodePadded d bytes = .ok row → decodePadded d bytes' = .ok row' →
      ∀ ci, ¬ d.IsFkColumn ci → row'[ci]? = row[ci]?

/-- A changed row that an action of the statement rewrites too is changed in columns only that
the actions assign. -/
def OwnWritesStand (env : Env) (fuel : Nat) (s : CatState) (op : JobOp) (table : String)
    (deltas : List RowDelta) : Prop :=
  ∀ plan, op.Plans env fuel s plan → ∀ delta ∈ deltas,
    (OrdMap.find (toLex (table, delta.pkKey)) plan.rewrites).isSome = true →
      ∀ ci : Nat, (∀ v, ¬ plan.Assigns s table delta.pkKey ci v) →
        delta.newRow[ci]? = delta.oldRow[ci]?

/-- A row that a closure rewrites, after the statement. -/
theorem Change.rewrittenRow {plan : Cascade} (hs : s.Sound)
    (h : Change fuel s table image deltas (some plan) s') {k : Bytes}
    {w : List Value × List Value} (hw : OrdMap.find (toLex (table, k)) plan.rewrites = some w) :
    ∃ bytes bytes', OrdMap.find k image.data = some bytes ∧
      decodePadded image.def_ bytes = .ok w.1 ∧ s'.rowAt table k = some bytes' ∧
      decodePadded image.def_ bytes' = .ok w.2 ∧
      ∀ ci, ¬ image.def_.IsFkColumn ci → w.2[ci]? = w.1[ci]? := by
  have hplan := (planReferential_eq_ok h.planned).1
  obtain ⟨image', hof⟩ := planCascade_rewriteOf hs.wellFormed hs.inOrder hplan _
    (OrdMap.mem_of_find hw)
  cases hof.found.symm.trans h.found
  obtain ⟨bytes, hmem, hdec⟩ := hof.stored
  obtain ⟨bytes', hbytes', hrow⟩ := (h.leaves hs.wellFormed hs.inOrder).rewritten table k w hw
    (by rw [h.found]; rfl)
  exact ⟨bytes, bytes', (OrdMap.find_eq_some_iff (hs.inOrder _ _ h.found)).2 hmem, hdec, hrow,
    decodePadded_encodeRow hbytes' (hof.length.trans (decodePadded_length hdec)), hof.cells⟩

/-- A changed row is rewritten from the form it was stored in. -/
theorem Change.rewrittenFrom {plan : Cascade} (hs : s.Sound)
    (h : Change fuel s table image deltas (some plan) s') {delta : RowDelta}
    (hdelta : delta ∈ deltas) {w : List Value × List Value}
    (hw : OrdMap.find (toLex (table, delta.pkKey)) plan.rewrites = some w) :
    w.1 = delta.oldRow := by
  obtain ⟨bytes, -, hfind, hdec, -⟩ := h.rewrittenRow hs hw
  obtain ⟨check, now, sets, bytes₀, hmem, hold, -⟩ := h.rows delta hdelta
  rw [(OrdMap.find_eq_some_iff (hs.inOrder _ _ h.found)).2 hmem] at hfind
  cases hfind
  exact Except.ok.inj (hdec.symm.trans hold)

/-- Only referencing columns are assigned. -/
theorem Cascade.Assigns.isFkColumn {plan : Cascade} (hs : s.Sound)
    (himage : OrdMap.find table s.tables = some image) {k : Bytes} {ci : Nat} {v : Value}
    (h : plan.Assigns s table k ci v) : image.def_.IsFkColumn ci := by
  obtain ⟨c, -, rfl, -, j, name, hj, hcol, -⟩ := h
  obtain ⟨image', bytes, himage', hdef, -⟩ := c.stored hs.wellFormed
  cases himage.symm.trans himage'
  rw [hdef]
  exact ⟨c.fk, c.fkMem, name, List.mem_of_getElem? hj, hcol⟩

/-- The rows an update does not target change in referencing columns only. -/
theorem Change.others {referential : Option Cascade} (hs : s.Sound)
    (h : Change fuel s table image deltas referential s') {k : Bytes}
    (hk : ∀ delta ∈ deltas, delta.pkKey ≠ k) :
    (s'.rowAt table k).isSome = (s.rowAt table k).isSome ∧
    ∀ bytes bytes' row row', s.rowAt table k = some bytes → s'.rowAt table k = some bytes' →
      decodePadded image.def_ bytes = .ok row → decodePadded image.def_ bytes' = .ok row' →
      ∀ ci, ¬ image.def_.IsFkColumn ci → row'[ci]? = row[ci]? := by
  have hl := h.leaves hs.wellFormed hs.inOrder
  cases hw : OrdMap.find (toLex (table, k)) (rewritesOf referential) with
  | none =>
    have hrow := hl.other table k hw (fun _ => hk)
    refine ⟨by rw [hrow], ?_⟩
    intro bytes bytes' row row' hb hb' hdec hdec' ci _
    rw [hrow, hb] at hb'
    cases hb'
    cases hdec.symm.trans hdec'
    rfl
  | some w =>
    cases referential with
    | none => cases hw
    | some plan =>
      obtain ⟨bytes, bytes', hfind, hdec, hrow, hdec', hcells⟩ := h.rewrittenRow hs hw
      rw [CatState.rowAt_of_find k h.found, hfind, hrow]
      refine ⟨rfl, ?_⟩
      intro b b' row row' hb hb' hd hd'
      cases hb
      cases hb'
      cases hdec.symm.trans hd
      cases hdec'.symm.trans hd'
      exact hcells

/-- **Updates store what they computed.** In every state of a run, a committed update stores
what it computed if and only if no row that it changes is rewritten by its own closure and
changed in a column that the closure does not assign. -/
theorem update_stores_iff {ops : List JobOp} (h : Run ops s) {envs : Nat → Env} {out : JobOut}
    (happly : apply envs fuel s op = .ok (out, s'))
    (himage : OrdMap.find table s.tables = some image)
    (htargets : op.Targets (envs 0) s table image deltas) :
    StoresComputed (envs 0) fuel s op s' table image.def_ deltas ↔
      OwnWritesStand (envs 0) fuel s op table deltas := by
  have hs := h.sound
  obtain ⟨referential, hchange⟩ := htargets.change himage happly
  have hl := hchange.leaves hs.wellFormed hs.inOrder
  have hplans : ∀ plan, op.Plans (envs 0) fuel s plan ↔ referential = some plan := by
    intro plan
    rw [htargets.plans_iff himage, hchange.planned]
    constructor
    · intro heq
      cases heq
      rfl
    · intro heq
      rw [heq]
  constructor
  · intro hstores plan hplan delta hdelta hsome ci hnone
    cases (hplans plan).1 hplan
    obtain ⟨w, hw⟩ := Option.isSome_iff_exists.1 hsome
    obtain ⟨-, bytes', -, -, hrow, hdec', -⟩ := hchange.rewrittenRow hs hw
    obtain ⟨b, row, hb, hd, hfree, hfk⟩ := hstores.changed delta hdelta
    cases hrow.symm.trans hb
    cases hdec'.symm.trans hd
    -- the closure leaves the column as stored, and the statement stored what it computed
    have hkept : w.2[ci]? = w.1[ci]? := by
      rcases planCascade_assigned hs (planReferential_eq_ok hchange.planned).1 hw ci with
        ⟨v, hv, -⟩ | ⟨-, hkept⟩
      · exact absurd hv (hnone v)
      · exact hkept
    have hown : w.2[ci]? = delta.newRow[ci]? := by
      by_cases hci : image.def_.IsFkColumn ci
      · rcases hfk ci hci with hown | ⟨plan', v, hplan', hv, -⟩
        · exact hown
        · cases (hplans plan').1 hplan'
          exact absurd hv (hnone v)
      · exact hfree ci hci
    rw [← hown, hkept, hchange.rewrittenFrom hs hdelta hw]
  · intro hstand
    refine ⟨?_, fun k hk => hchange.others hs hk⟩
    intro delta hdelta
    cases hw : OrdMap.find (toLex (table, delta.pkKey)) (rewritesOf referential) with
    | none =>
      exact ⟨delta.bytes, delta.newRow, hl.target delta hdelta hw,
        (hchange.rows delta hdelta).reads, fun _ _ => rfl, fun _ _ => .inl rfl⟩
    | some w =>
      cases referential with
      | none => cases hw
      | some plan =>
        have hplan := (hplans plan).2 rfl
        obtain ⟨-, bytes', -, -, hrow, hdec', -⟩ := hchange.rewrittenRow hs hw
        have hcell : ∀ ci, w.2[ci]? = delta.newRow[ci]? ∨ ∃ v,
            plan.Assigns s table delta.pkKey ci v ∧ w.2[ci]? = some v := by
          intro ci
          rcases planCascade_assigned hs (planReferential_eq_ok hchange.planned).1 hw ci with
            hassigned | ⟨hnone, hkept⟩
          · exact .inr hassigned
          · have hsame := hstand plan hplan delta hdelta
              (by rw [show OrdMap.find _ plan.rewrites = some w from hw]; rfl) ci hnone
            rw [hkept, hsame, hchange.rewrittenFrom hs hdelta hw]
            exact .inl rfl
        refine ⟨bytes', w.2, hrow, hdec', ?_, ?_⟩
        · intro ci hci
          rcases hcell ci with hsame | ⟨v, hv, -⟩
          · exact hsame
          · exact absurd (hv.isFkColumn hs himage) hci
        · intro ci _
          rcases hcell ci with hsame | ⟨v, hv, hval⟩
          · exact .inl hsame
          · exact .inr ⟨plan, v, hplan, hv, hval⟩

end Stores

/-! ### A row that refers to itself -/

/-- The change an update by key makes. -/
def deltaOf (env : Env) (s : CatState) (image : TableImage) (table : String) (pk : List Value)
    (sets : List (String × Value)) : Option RowDelta := do
  let pkKey ← (encodePk table image.def_ pk).toOption
  let bytes ← OrdMap.find pkKey image.data
  let oldRow ← (decodePadded image.def_ bytes).toOption
  (changeRow (probeArriving table image) (env.now 0 0) s table image.def_ pkKey oldRow
    sets).toOption

theorem deltaOf_eq_some {env : Env} {s : CatState} {image : TableImage} {table : String}
    {pk : List Value} {sets : List (String × Value)} {d : RowDelta}
    (h : deltaOf env s image table pk sets = some d) :
    (JobOp.update table pk sets).Targets env s table image [d] := by
  obtain ⟨pkKey, hpk, h⟩ := Option.bind_eq_some_iff.1 h
  obtain ⟨bytes, hbytes, h⟩ := Option.bind_eq_some_iff.1 h
  obtain ⟨oldRow, hold, h⟩ := Option.bind_eq_some_iff.1 h
  exact ⟨rfl, pkKey, bytes, oldRow, d, Result.toOption_eq_some hpk, hbytes,
    Result.toOption_eq_some hold, Result.toOption_eq_some h, rfl⟩

/-- A boss is referred to by code. -/
def bossFk : ForeignKey := ⟨"of_boss", ["boss"], "people", ["code"], .restrict, .cascade⟩

/-- People with a code and a boss among them. -/
def peopleDef : TableDef :=
  ⟨"people", [ColumnDef.new "id" .i64, ColumnDef.new "code" .i64,
    { ColumnDef.new "boss" .i64 with nullable := true }, ColumnDef.new "rank" .i64], ["id"], [],
    [⟨"by_code", ["code"], true⟩], [bossFk]⟩

/-- One person, their own boss. -/
def ownBoss : List JobOp :=
  [.createTable peopleDef,
    .insert "people" [[("id", .i64 1), ("code", .i64 10), ("rank", .i64 1)]],
    .update "people" [.i64 1] [("boss", .i64 10)]]

/-- A new code. -/
def recode : JobOp := .update "people" [.i64 1] [("code", .i64 20)]

/-- A new rank. -/
def promote : JobOp := .update "people" [.i64 1] [("rank", .i64 2)]

/-- The table and the change an update of the person makes, with what was planned for it. -/
def personChange (sets : List (String × Value)) (s : CatState) :
    Option (TableImage × RowDelta × Option Cascade) := do
  let image ← OrdMap.find "people" s.tables
  let d ← deltaOf (tickingEnv 3) s image "people" [.i64 1] sets
  let referential ← (planReferential 9 s "people" image.def_ [d]).toOption
  pure (image, d, referential)

theorem personChange_eq_some {sets : List (String × Value)} {s : CatState} {image : TableImage}
    {d : RowDelta} {referential : Option Cascade}
    (h : personChange sets s = some (image, d, referential)) :
    OrdMap.find "people" s.tables = some image ∧
      (JobOp.update "people" [.i64 1] sets).Targets (tickingEnv 3) s "people" image [d] ∧
      planReferential 9 s "people" image.def_ [d] = .ok referential := by
  obtain ⟨image', himage, h⟩ := Option.bind_eq_some_iff.1 h
  obtain ⟨d', hd, h⟩ := Option.bind_eq_some_iff.1 h
  obtain ⟨referential', hplan, h⟩ := Option.bind_eq_some_iff.1 h
  cases h
  exact ⟨himage, deltaOf_eq_some hd, Result.toOption_eq_some hplan⟩

/-- Nothing is rewritten for a change of rank. -/
def rankOnly (s : CatState) : Bool :=
  (personChange [("rank", .i64 2)] s).any (fun c =>
    c.2.2.any (fun plan => plan.rewrites.isEmpty))

/-- A new rank is stored. -/
theorem update_stores_promotion : ∃ s s' image d, Run ownBoss s ∧ Commits s promote s' ∧
    OrdMap.find "people" s.tables = some image ∧
    promote.Targets (tickingEnv 3) s "people" image [d] ∧
    StoresComputed (tickingEnv 3) 9 s promote s' "people" image.def_ [d] := by
  obtain ⟨s, s', out, hrun, happly, htest⟩ := RunWhere.evalThen (C := Free) tickingEnv 9 ownBoss
    promote (fun s _ => rankOnly s) (fun op _ env s => meets_free _ _ _ _) (by decide +kernel)
  obtain ⟨⟨image, d, referential⟩, hchange, htest⟩ := (Option.any_eq_true _ _).1 htest
  obtain ⟨plan, rfl, hempty⟩ := (Option.any_eq_true _ _).1 htest
  obtain ⟨himage, htargets, hplan⟩ := personChange_eq_some hchange
  refine ⟨s, s', image, d, hrun.run, ⟨_, _, _, happly⟩, himage, htargets,
    (update_stores_iff hrun.run happly himage htargets).2 ?_⟩
  intro plan' hplan' delta hdelta hsome
  cases hplan.symm.trans ((htargets.plans_iff himage).1 hplan')
  rw [List.isEmpty_iff.1 hempty] at hsome
  cases hsome

/-- The code that is stored is not the one that was computed. -/
def codeLost (s s' : CatState) : Bool :=
  (personChange [("code", .i64 20)] s).any (fun c =>
    decide (c.1.def_.columns = peopleDef.columns ∧ c.1.def_.foreignKeys = [bossFk] ∧
      c.2.1.newRow[1]? = some (.i64 20)) &&
    ((s'.rowAt "people" c.2.1.pkKey).bind
      (fun bytes => (decodePadded c.1.def_ bytes).toOption)).any
        (fun row => row[1]? = some (.i64 10)))

/-- The closure of a new code rewrites the row from its old form. -/
theorem new_code_is_lost : ∃ s s' image d, Run ownBoss s ∧
    (∃ out, apply (fun _ => tickingEnv 3) 9 s recode = .ok (out, s')) ∧
    OrdMap.find "people" s.tables = some image ∧
    recode.Targets (tickingEnv 3) s "people" image [d] ∧
    ¬ StoresComputed (tickingEnv 3) 9 s recode s' "people" image.def_ [d] := by
  obtain ⟨s, s', out, hrun, happly, htest⟩ := RunWhere.evalThen (C := Free) tickingEnv 9 ownBoss
    recode codeLost (fun op _ env s => meets_free _ _ _ _) (by decide +kernel)
  obtain ⟨⟨image, d, referential⟩, hchange, htest⟩ := (Option.any_eq_true _ _).1 htest
  obtain ⟨himage, htargets, -⟩ := personChange_eq_some hchange
  obtain ⟨hcols, hfks, hnew⟩ := of_decide_eq_true (Bool.and_eq_true _ _ ▸ htest).1
  have hstored := (Bool.and_eq_true _ _ ▸ htest).2
  obtain ⟨row, hrow, hold⟩ := (Option.any_eq_true _ _).1 hstored
  obtain ⟨bytes, hbytes, hrow⟩ := Option.bind_eq_some_iff.1 hrow
  refine ⟨s, s', image, d, hrun.run, ⟨out, happly⟩, himage, htargets, ?_⟩
  intro hstores
  obtain ⟨bytes', row', hbytes', hrow', hfree, -⟩ := hstores.changed d (by simp)
  cases hbytes.symm.trans hbytes'
  have hcode : ¬ image.def_.IsFkColumn 1 := by
    rintro ⟨fk, hfk, name, hname, hci⟩
    rw [hfks] at hfk
    cases List.mem_singleton.1 hfk
    cases List.mem_singleton.1 hname
    rw [TableDef.colIndex, hcols] at hci
    revert hci
    decide
  cases (Result.toOption_eq_some hrow).symm.trans hrow'
  have := (of_decide_eq_true hold).symm.trans ((hfree 1 hcode).trans hnew)
  revert this
  decide

end Edb.Catalog
