import Edb.Catalog.Orphans

/-!
# Updates that keep references

The closure of an update rewrites rows by the actions of their foreign keys. When the actions agree
on every column they assign, a row they rewrite ends at the key that the row it refers to ends with
(`ChildStep.lands`, `ChildStep.arrives`). An update keeps references when moreover its closure
rewrites no row it changes, spares the foreign keys that do not act, and takes no key that a change
refers to anew (`Change.referential`).
-/

namespace Edb.Catalog

open Edb.Types Edb.Lib

/-! ## The effects of changes -/

section Telling

variable {s : CatState} {plan : Cascade} {queue waiting starts : List CascadeEffect}
  {known known' : CascadeEffect → Prop}

/-- An effect waits, or was worked off. -/
abbrev Cascade.Known (plan : Cascade) (waiting : List CascadeEffect) (e : CascadeEffect) : Prop :=
  e ∈ waiting ∨ e ∈ plan.effects

/-- An effect tells of a form that a rewritten row took: every column is as it was stored, or holds
what an action of known effects assigned to it. -/
def TellsForm (s : CatState) (known : CascadeEffect → Prop) (plan : Cascade) (e : CascadeEffect) :
    Prop :=
  ∃ k w new, OrdMap.find (toLex (e.table, k)) plan.rewrites = some w ∧ e.oldRow = w.1 ∧
    e.newRow = some new ∧
      ∀ ci : Nat, new[ci]? = w.1[ci]? ∨ AssignedBy s known e.table k (w.1, new) ci

/-- What is known of the effects of changes at any time. `starts` are the effects of the changes
themselves, `waiting` those whose children are still to be met. -/
structure Telling (s : CatState) (starts : List CascadeEffect) (plan : Cascade)
    (waiting : List CascadeEffect) : Prop where
  base : ChangesOnly s plan waiting
  told : Told plan waiting
  rewrites : RewritesAssigned s (plan.Known waiting) plan
  forms : ∀ e, plan.Known waiting e → e ∈ starts ∨ TellsForm s (plan.Known waiting) plan e

theorem RewritesAssigned.mono (h : RewritesAssigned s known plan)
    (hk : ∀ c : ChildStep s s.allTables, known c.eff → known' c.eff) :
    RewritesAssigned s known' plan :=
  fun t k w hw ci => (h t k w hw ci).imp id (.mono hk)

theorem TellsForm.mono {e : CascadeEffect} (h : TellsForm s known plan e)
    (hk : ∀ c : ChildStep s s.allTables, known c.eff → known' c.eff) :
    TellsForm s known' plan e := by
  obtain ⟨k, w, new, hw, hold, hnew, hcells⟩ := h
  exact ⟨k, w, new, hw, hold, hnew, fun ci => (hcells ci).imp id (.mono hk)⟩

/-- What an effect told of stays told when a step rewrites the row again: it starts from the stored
row each time. -/
theorem TellsForm.later (hs : s.Sound) (hp : ChangesOnly s plan waiting)
    (c : ChildStep s s.allTables) (heff : c.eff.newRow ≠ none) {e : CascadeEffect}
    (h : TellsForm s known plan e) : TellsForm s known (c.plan plan).1 e := by
  obtain ⟨k, w, new, hw, hold, hnew, hcells⟩ := h
  obtain ⟨w', hw', hsame⟩ : ∃ w', OrdMap.find (toLex (e.table, k)) (c.plan plan).1.rewrites =
      some w' ∧ w'.1 = w.1 := by
    rw [hp.plan_eq c heff]
    dsimp only
    rw [OrdMap.find_insert]
    split
    · next href =>
      obtain ⟨image, hof⟩ := hp.rewrites _ (OrdMap.mem_of_find hw)
      rw [← href] at hof
      exact ⟨_, rfl, (c.sameRow hs.wellFormed hs.inOrder hof).symm⟩
    · exact ⟨w, hw, rfl⟩
  rw [← hsame] at hold hcells
  exact ⟨k, w', new, hw', hold, hnew, hcells⟩

/-- A step keeps what is known of the effects. -/
theorem Telling.step (hs : s.Sound) (c : ChildStep s s.allTables)
    (h : Telling s starts plan (c.eff :: queue)) :
    Telling s starts (c.plan plan).1 (c.eff :: (queue ++ (c.plan plan).2)) := by
  have heff : c.eff.newRow ≠ none := h.base.queued c.eff List.mem_cons_self
  have hmore : ∀ e, plan.Known (c.eff :: queue) e →
      (c.plan plan).1.Known (c.eff :: (queue ++ (c.plan plan).2)) e := by
    intro e he
    rw [Cascade.Known, c.effects plan, ← List.cons_append]
    exact he.imp (List.mem_append_left _) id
  have hrewrites := (c.rewritesAssigned hs h.base heff (.inl List.mem_cons_self) h.rewrites).mono
    (fun c' => hmore c'.eff)
  have hforms : ∀ e, plan.Known (c.eff :: queue) e → e ∈ starts ∨
      TellsForm s ((c.plan plan).1.Known (c.eff :: (queue ++ (c.plan plan).2)))
        (c.plan plan).1 e :=
    fun e he => (h.forms e he).imp id
      (fun htells => (htells.later hs h.base c heff).mono (fun c' => hmore c'.eff))
  refine ⟨h.base.step hs c heff, h.told.step hs c h.base.rewrites, hrewrites, fun e he => ?_⟩
  rcases he with he | he
  · rw [← List.cons_append] at he
    rcases List.mem_append.1 he with he | he
    · exact hforms e (.inl he)
    -- the form that the step gives the row it meets
    · right
      have hplan := h.base.plan_eq c heff
      have hfind : OrdMap.find (rowRef c.child c.pkKey) (c.plan plan).1.rewrites = some (c.row,
          rewritten c.parent c.child c.fk c.eff c.action plan c.pkKey c.row) := by
        rw [hplan]
        exact (OrdMap.find_insert _ _ _ _).trans (if_pos rfl)
      have hnew : e = ⟨c.child.name, c.row,
          some (rewritten c.parent c.child c.fk c.eff c.action plan c.pkKey c.row)⟩ := by
        rw [hplan] at he
        dsimp only at he
        split at he
        · cases he
        · exact List.mem_singleton.1 he
      subst hnew
      exact ⟨c.pkKey, _, _, hfind, rfl, rfl, hrewrites _ _ _ hfind⟩
  · rw [c.effects plan] at he
    exact hforms e (.inr he)

/-- **The effects of changes.** Every row the closure rewrites is told of by an effect, and every
effect is that of a change or tells of a form of a rewritten row. -/
theorem planCascade_telling (hs : s.Sound) {fuel : Nat}
    {changes : List (String × List Value × List Value)}
    (h : planCascade s s.allTables fuel [] changes = .ok plan) :
    Telling s (changeEffects changes) plan [] := by
  have hrule : @StepRule s s.allTables
      (fun eff plan queue => Telling s (changeEffects changes) plan (eff :: queue))
      (fun _ _ => True) :=
    ⟨fun c _ _ hJ => hJ.step hs c, fun _ _ _ _ => trivial, fun _ _ _ _ _ _ _ => trivial⟩
  refine hrule.planLoop (I := Telling s (changeEffects changes)) ?_ (fun _ _ _ h => h) ?_ h ?_
  · intro plan eff queue hmissing hI
    -- no step is made of an effect of an unknown table
    have hless : ∀ c : ChildStep s s.allTables, plan.Known (eff :: queue) c.eff →
        plan.Known queue c.eff := by
      refine fun c hc => hc.imp (fun hc => (List.mem_cons.1 hc).resolve_left ?_) id
      intro heq
      cases c.found.symm.trans (heq ▸ hmissing)
    refine ⟨hI.base.pop.2, hI.told.skip hs.wellFormed hI.base.rewrites hmissing,
      hI.rewrites.mono hless, fun e he => ?_⟩
    exact (hI.forms e (he.imp (List.mem_cons_of_mem _) id)).imp id (fun h => h.mono hless)
  · intro plan eff queue hJ _
    have hsame : ∀ e, plan.Known (eff :: queue) e ↔
        Cascade.Known { plan with effects := plan.effects ++ [eff] } queue e := by
      intro e
      rw [Cascade.Known, Cascade.Known, List.mem_cons, List.mem_append, List.mem_singleton]
      tauto
    have hmono : ∀ c : ChildStep s s.allTables, plan.Known (eff :: queue) c.eff →
        Cascade.Known { plan with effects := plan.effects ++ [eff] } queue c.eff :=
      fun c => (hsame c.eff).1
    have hpopped := hJ.base.pop.2
    exact ⟨⟨hpopped.deletes, hpopped.queued, hpopped.rewrites⟩, hJ.told.record,
      hJ.rewrites.mono hmono, fun e he => (hJ.forms e ((hsame e).2 he)).imp id
        (fun htells => htells.mono hmono)⟩
  · refine ⟨changesOnly_start changes, fun r w hw => ?_, fun t k w hw => ?_, fun e he => ?_⟩
    · cases hw
    · cases hw
    · exact .inl (he.resolve_right List.not_mem_nil)

end Telling

/-! ## Actions that agree -/

/-- The new key that an action gives a row, when it gives one. -/
theorem rewrittenKey_ne_nil {parent : TableDef} {fk : ForeignKey} {eff : CascadeEffect}
    {action : RefAction} (h : rewrittenKey parent fk eff action ≠ []) :
    ∃ new, eff.newRow = some new ∧
      parentKeyOf parent fk new = some (rewrittenKey parent fk eff action) := by
  unfold rewrittenKey at h ⊢
  by_cases haction : action = .cascade
  · rw [if_pos haction] at h ⊢
    cases hnew : eff.newRow with
    | none =>
      rw [hnew] at h
      exact absurd rfl h
    | some new =>
      rw [hnew] at h
      refine ⟨new, rfl, ?_⟩
      dsimp only at h ⊢
      cases hkey : parentKeyOf parent fk new with
      | none =>
        rw [hkey] at h
        exact absurd rfl h
      | some key => rfl
  · rw [if_neg haction] at h
    exact absurd rfl h

/-- No two actions of a closure assign different values to one column of a row. -/
def Cascade.Agrees (s : CatState) (plan : Cascade) : Prop :=
  ∀ t k ci v v', plan.Assigns s t k ci v → plan.Assigns s t k ci v' → v.eqv v' = true

section Agreeing

variable {s : CatState} {plan : Cascade} {fuel : Nat}
  {changes : List (String × List Value × List Value)} (hs : s.Sound) (hn : s.FksNamed)
  (hplan : planCascade s s.allTables fuel [] changes = .ok plan) (hagrees : plan.Agrees s)

include hs hplan hagrees

/-- A column of a rewritten row holds what any action assigned to it. -/
theorem assigned_cell {t : String} {k : Bytes} {w : List Value × List Value}
    (hw : OrdMap.find (toLex (t, k)) plan.rewrites = some w) {ci : Nat} {v : Value}
    (hv : plan.Assigns s t k ci v) : ∃ u, w.2[ci]? = some u ∧ u.eqv v = true := by
  rcases planCascade_assigned hs hplan hw ci with ⟨u, hu, hcell⟩ | ⟨hnone, -⟩
  · exact ⟨u, hcell, hagrees _ _ _ _ _ hu hv⟩
  · exact absurd hv (hnone v)

include hn

/-- A row that an action rewrote, and that still refers, refers to the new key of its effect. -/
theorem ChildStep.lands (c : ChildStep s s.allTables) (hc : c.eff ∈ plan.effects)
    {w : List Value × List Value}
    (hw : OrdMap.find (rowRef c.child c.pkKey) plan.rewrites = some w) {vals : List Value}
    (hvals : fkValues c.child c.fk w.2 = some vals) :
    ∃ new, c.eff.newRow = some new ∧
      optEqv (parentKeyOf c.parent c.fk new) (some vals) = true := by
  obtain ⟨image, himage, hdef⟩ := hs.wellFormed.mem_allTables c.mem
  have hfk := (hs.wellFormed.tables _ image himage).def_.foreignKeys c.fk (hdef ▸ c.fkMem)
  rw [hdef] at hfk
  obtain ⟨hmap, hnulls⟩ := keyCells_eq hvals
  have hlen : vals.length = c.fk.columns.length := by rw [← hmap, List.length_map]
  -- each cell of the key holds what the action assigned to it
  have hcells : ∀ (j : Nat) (hj : j < vals.length), vals[j].eqv
      ((rewrittenKey c.parent c.fk c.eff c.action)[j]?.getD .null) = true := by
    intro j hj
    have hj' : j < c.fk.columns.length := hlen ▸ hj
    obtain ⟨ci, hci⟩ := Option.isSome_iff_exists.1 (hfk.columns _ (List.getElem_mem hj'))
    obtain ⟨u, hu, heq⟩ := assigned_cell hs hplan hagrees hw
      ⟨c, hc, rfl, rfl, j, _, List.getElem?_eq_getElem hj', hci, rfl⟩
    have hval : vals[j]? = some u := by
      rw [← hmap, List.getElem?_map, List.getElem?_eq_getElem hj', Option.map_some,
        CheckExpr.cell, hci, Option.bind_some, hu]
      rfl
    rw [List.getElem?_eq_getElem hj] at hval
    rw [Option.some.inj hval]
    exact heq
  have hset : rewrittenKey c.parent c.fk c.eff c.action ≠ [] := by
    intro hnil
    have hpos : 0 < vals.length :=
      hlen ▸ List.length_pos_iff.2 (hn _ image himage c.fk (hdef ▸ c.fkMem))
    have hfirst := hcells 0 hpos
    rw [hnil] at hfirst
    -- a value that is set is no NULL
    cases isNull_of_eqv (Value.eqv_symm hfirst) (hnulls _ (List.getElem_mem hpos))
  obtain ⟨new, hnew, hkey⟩ := rewrittenKey_ne_nil hset
  have hlen' : (rewrittenKey c.parent c.fk c.eff c.action).length = vals.length := by
    rw [← (keyCells_eq hkey).1, List.length_map, hlen, hfk.length]
  refine ⟨new, hnew, optEqv_some_iff.2 ⟨_, hkey, valuesEqv_symm ?_⟩⟩
  rw [valuesEqv_iff, List.forall₂_iff_get]
  refine ⟨hlen'.symm, fun j hj hj' => ?_⟩
  have hcell := hcells j hj
  rw [List.getElem?_eq_getElem hj', Option.getD_some] at hcell
  exact hcell

/-- An action moves the row it meets off the key that goes. -/
theorem ChildStep.movesOff (c : ChildStep s s.allTables) (hc : c.eff ∈ plan.effects) :
    plan.MovesOff c.child c.fk c.pkKey c.oldKey := by
  refine ((planCascade_meets hs.wellFormed hplan).2 c hc).imp id (fun hmet => ?_)
  obtain ⟨w, hw⟩ := Option.isSome_iff_exists.1 hmet
  refine ⟨w, hw, Bool.eq_false_iff.2 (fun hon => ?_)⟩
  obtain ⟨vals, hvals, heq⟩ := optEqv_some_iff.1 hon
  obtain ⟨new, hnew, hkey⟩ := c.lands hs hn hplan hagrees hc hw hvals
  exact fkAction_moved c.acts hnew (optEqv_congr hkey heq)

/-- A row that refers to the key of a form that another row took refers to the key that row ends
with. -/
theorem ChildStep.arrives (c : ChildStep s s.allTables)
    {w : List Value × List Value}
    (hw : OrdMap.find (rowRef c.child c.pkKey) plan.rewrites = some w) {vals : List Value}
    (hvals : fkValues c.child c.fk w.2 = some vals)
    (htells : TellsForm s (plan.Known []) plan c.eff) :
    ∃ k w', OrdMap.find (toLex (c.eff.table, k)) plan.rewrites = some w' ∧
      optEqv (parentKeyOf c.parent c.fk w'.2) (some vals) = true := by
  obtain ⟨k, w', new, hw', hold, hnew, hcells⟩ := htells
  refine ⟨k, w', hw', ?_⟩
  obtain ⟨e, he, htable, hfrom, last, hlast, hsame⟩ :=
    (planCascade_telling hs hplan).told _ w' hw'
  have he := he.resolve_left List.not_mem_nil
  have htable : e.table = c.eff.table := htable
  have hkey := fkAction_key c.acts
  -- the last form has another key than the stored row
  have hmoved : optEqv (parentKeyOf c.parent c.fk last) (some c.oldKey) = false := by
    rw [Bool.eq_false_iff]
    intro hback
    have hback := keyCells_eqv hsame hback
    have hself := optEqv_some_iff.2 ⟨c.oldKey, hkey, valuesEqv_refl c.oldKey⟩
    refine fkAction_moved c.acts hnew (keyCells_of_cells (fun name hname => ?_) hself)
    have hlike := cells_of_keyCells hback hself name hname
    obtain ⟨ci, hci⟩ := Option.isSome_iff_exists.1 (colIndex_of_keyCells hkey name hname)
    rw [CheckExpr.cell, CheckExpr.cell, hci, Option.bind_some, Option.bind_some] at hlike ⊢
    rcases hcells ci with hstored | ⟨c', v, hc', ht, hk, hv, hcell⟩
    · rw [hstored, hold]
      exact Value.eqv_refl _
    -- a column that was assigned holds an equal value at the end
    · obtain ⟨u, hu, heq⟩ := assigned_cell hs hplan hagrees hw'
        ⟨c', hc'.resolve_left List.not_mem_nil, ht, hk, hv⟩
      have hcell : new[ci]? = some v := hcell
      rw [hu] at hlike
      rw [hcell]
      exact Value.eqv_trans (Value.eqv_symm heq) hlike
  obtain ⟨action, hacts⟩ := fkAction_of_moved e (htable ▸ (fkAction_eq_some c.acts).1)
    (hfrom ▸ hold ▸ hkey) (fun newRow hrow => Option.some.inj (hlast.symm.trans hrow) ▸ hmoved)
  have haction : action = c.action :=
    ((fkAction_eq_some hacts).2.2 last hlast).trans ((fkAction_eq_some c.acts).2.2 new hnew).symm
  -- so it met the referring row too
  let c' : ChildStep s s.allTables := { c with
    eff := e, action := action, found := htable ▸ c.found, acts := hacts
    free := haction ▸ c.free }
  obtain ⟨new', hnew', hlands⟩ := c'.lands hs hn hplan hagrees he hw hvals
  cases hlast.symm.trans hnew'
  exact keyCells_eqv hsame hlands

end Agreeing

/-! ## Updates -/

/-- An action of a foreign key rewrites a row. -/
def Cascade.ActsOn (s : CatState) (plan : Cascade) (t : String) (k : Bytes) (fk : ForeignKey) :
    Prop :=
  ∃ c : ChildStep s s.allTables, c.eff ∈ plan.effects ∧ c.child.name = t ∧ c.pkKey = k ∧ c.fk = fk

/-- Where an action assigns a column that belongs to another foreign key too, it assigns the value
that is there or NULL, unless the other foreign key acts on the row as well. -/
def Cascade.Spares (s : CatState) (plan : Cascade) : Prop :=
  ∀ t a k old ci v, OrdMap.find t s.tables = some a → a.rows k = some old →
    plan.Assigns s t k ci v → ∀ fk ∈ a.def_.foreignKeys,
      (∃ name ∈ fk.columns, a.def_.colIndex name = some ci) →
        v.isNull = true ∨ (∃ u, old[ci]? = some u ∧ u.eqv v = true) ∨ plan.ActsOn s t k fk

/-- A closure of changes that keeps references: it rewrites no changed row, its actions agree and
spare the foreign keys that do not act, and no change refers anew to a key it takes away. -/
structure Cascade.Coherent (s : CatState) (def_ : TableDef) (deltas : List RowDelta)
    (plan : Cascade) : Prop where
  apart : ∀ d ∈ deltas, OrdMap.find (rowRef def_ d.pkKey) plan.rewrites = none
  agrees : plan.Agrees s
  spares : plan.Spares s
  fresh : ∀ d ∈ deltas, ∀ fk ∈ def_.foreignKeys, ∀ vals, fkValues def_ fk d.newRow = some vals →
    optEqv (fkValues def_ fk d.oldRow) (some vals) = false → ¬ plan.Takes s fk vals

section Updates

variable {fuel : Nat} {s s' : CatState} {table : String} {image : TableImage}
  {deltas : List RowDelta} {closure : Option Cascade}

/-- A change moves no primary key. -/
theorem ChangedRow.pkCells_eq {d : RowDelta} (hs : s.WellFormed) (hv : s.RowsValid)
    (himage : OrdMap.find table s.tables = some image) (hkey : image.def_.KeyUnmanaged)
    (h : ChangedRow s table image d) :
    pkCells image.def_ d.newRow = pkCells image.def_ d.oldRow := by
  obtain ⟨check, now, sets, bytes, hmem, hold, h⟩ := h
  obtain ⟨-, -, hmade⟩ := changeRow_eq_ok h
  obtain ⟨oldRow, hold', hvalid⟩ := hv table image himage _ hmem
  cases hold.symm.trans hold'
  exact (transformRow_eq_ok (hs.tables table image himage).def_ hmade.transformed hvalid.toFits
    hvalid.notNull).2.2 hkey

/-- A primary key that foreign keys refer to is the same in a changed row. -/
theorem ChangedRow.parentKeyOf_eq {d : RowDelta} {fk : ForeignKey} {vals : List Value}
    (hs : s.WellFormed) (hv : s.RowsValid) (himage : OrdMap.find table s.tables = some image)
    (hkey : image.def_.KeyUnmanaged) (h : ChangedRow s table image d)
    (hpk : image.def_.pk = fk.parentColumns)
    (hold : parentKeyOf image.def_ fk d.oldRow = some vals) :
    parentKeyOf image.def_ fk d.newRow = some vals := by
  have hd := (hs.tables table image himage).def_
  rw [parentKeyOf, ← hpk] at hold ⊢
  obtain ⟨hmap, hnulls⟩ := keyCells_eq hold
  rw [← pkCells_eq_map hd, ← h.pkCells_eq hs hv himage hkey] at hmap
  rw [keyCells_pk hd (hmap ▸ hnulls), hmap]

/-- What a change leaves of a table: its closure is written last. -/
theorem Change.leaves_rows (hs : s.Sound) (h : Change fuel s table image deltas closure s') :
    ∀ t a, OrdMap.find t s.tables = some a → ∃ b, OrdMap.find t s'.tables = some b ∧
      b.def_ = a.def_ ∧
      (∀ k w, OrdMap.find (toLex (t, k)) (rewritesOf closure) = some w → b.rows k = some w.2) ∧
      ∀ k, OrdMap.find (toLex (t, k)) (rewritesOf closure) = none →
        b.rows k = writeRows (if table = t then deltas.map RowDelta.write else []) a.rows k := by
  intro t a ha
  obtain ⟨b, hb, hab⟩ := (h.wrote hs).2 t a ha
  refine ⟨b, hb, hab.def_, ?_⟩
  rw [hab.rows, writesOn_append, writeRows_append, List.map_map, Function.comp_def, writesOn_map]
  cases closure with
  | none => exact ⟨(fun k w hw => by cases hw), fun k _ => rfl⟩
  | some plan =>
    have hplan := (planReferential_eq_ok h.planned).1
    have hsorted := (planCascade_sorted hplan).1
    refine ⟨fun k w hw => ?_, fun k hnone => ?_⟩
    · exact writeRows_of_mem (rewritesOn_stored hs hplan ha).2
        (Cascade.mem_rewritesOn.2 ⟨_, OrdMap.mem_of_find hw, rfl⟩ :
          (⟨k, some w.1, some w.2⟩ : RowWrite) ∈ plan.rewritesOn t)
    · refine writeRows_of_ne (fun w hw hk => ?_)
      obtain ⟨r, hr, heq⟩ := Cascade.mem_rewritesOn.1 hw
      obtain ⟨rfl, rfl⟩ := Prod.mk.inj heq
      subst hk
      cases ((OrdMap.find_eq_some_iff hsorted).2 hr).symm.trans hnone

/-- A changed row that the closure leaves alone is as the change made it. -/
theorem Change.changed_row (hs : s.Sound)
    (hapart : ∀ d ∈ deltas, OrdMap.find (toLex (table, d.pkKey)) (rewritesOf closure) = none)
    (h : Change fuel s table image deltas closure s') {b : TableImage}
    (hb : OrdMap.find table s'.tables = some b) {d : RowDelta} (hd : d ∈ deltas) :
    b.rows d.pkKey = some d.newRow := by
  obtain ⟨b', hb', -, -, hothers⟩ := h.leaves_rows hs table image h.found
  cases hb.symm.trans hb'
  rw [hothers _ (hapart d hd), if_pos rfl]
  refine writeRows_of_mem ?_ (List.mem_map_of_mem hd)
  rw [List.map_map]
  exact h.nodup hs.inOrder

/-- A key that a changed row does not keep is taken by the closure. -/
theorem Change.takes_of_moved (hs : s.Sound) (hv : s.RowsValid) (hk : s.Keyed)
    (hkey : image.def_.KeyUnmanaged) (h : Change fuel s table image deltas closure s')
    {d : RowDelta} (hd : d ∈ deltas) {u : String} {c : TableImage}
    (hc : OrdMap.find u s.tables = some c) {fk : ForeignKey} (hfk : fk ∈ c.def_.foreignKeys)
    (hparent : fk.parent = table) {vals : List Value}
    (hold : optEqv (parentKeyOf image.def_ fk d.oldRow) (some vals) = true)
    (hmoved : ¬ optEqv (parentKeyOf image.def_ fk d.newRow) (some vals) = true) :
    ∃ plan, closure = some plan ∧ plan.Takes s fk vals := by
  subst hparent
  obtain ⟨vs, hvs, hvals⟩ := optEqv_some_iff.1 hold
  cases closure with
  | none =>
    -- without a unique index the key is the primary key
    have hindexes : ¬ (image.def_.indexes.any (fun i => i.unique) = true) := by
      intro hany
      have hplanned := h.planned
      rw [planReferential, planChanges, if_pos hany] at hplanned
      obtain ⟨plan, -, hplanned⟩ := Result.bind_eq_ok.1 hplanned
      obtain ⟨_, -, hplanned⟩ := Result.bind_eq_ok.1 hplanned
      obtain ⟨_, -, hplanned⟩ := Result.bind_eq_ok.1 hplanned
      cases hplanned
    refine absurd ?_ hmoved
    rcases TableDef.isKey_iff.1 (hk u c fk image hc hfk h.found) with hpk | ⟨idx, hidx, hu, -⟩
    · exact optEqv_some_iff.2
        ⟨vs, (h.rows d hd).parentKeyOf_eq hs.wellFormed hv h.found hkey hpk hvs, hvals⟩
    · exact absurd (List.any_eq_true.2 ⟨idx, hidx, hu⟩) hindexes
  | some plan =>
    have hplan := (planReferential_eq_ok h.planned).1
    have hmem : (⟨fk.parent, d.oldRow, some d.newRow⟩ : CascadeEffect) ∈ plan.effects := by
      refine (planCascade_meets hs.wellFormed hplan).1 _ ?_ (by rw [h.found]; rfl)
      exact List.mem_map.2 ⟨_, List.mem_map_of_mem hd, rfl⟩
    obtain ⟨action, hacts⟩ := fkAction_of_moved ⟨fk.parent, d.oldRow, some d.newRow⟩ rfl hvs
      (fun new hnew => by
        cases hnew
        exact Bool.eq_false_iff.2 (fun hon => hmoved (optEqv_congr hon hvals)))
    exact ⟨plan, rfl, _, hmem, image, action, vs, h.found, hacts, hvals⟩

/-- A key that a change does not keep is taken by its closure. -/
theorem Change.keeps_or_takes (hs : s.Sound) (hv : s.RowsValid) (hk : s.Keyed)
    (hkey : deltas ≠ [] → image.def_.KeyUnmanaged)
    (hapart : ∀ d ∈ deltas, OrdMap.find (toLex (table, d.pkKey)) (rewritesOf closure) = none)
    (h : Change fuel s table image deltas closure s') {u : String} {c : TableImage}
    (hc : OrdMap.find u s.tables = some c) {fk : ForeignKey} (hfk : fk ∈ c.def_.foreignKeys)
    {vals : List Value} (hhas : s.HasKey fk vals) :
    s'.HasKey fk vals ∨ ∃ plan, closure = some plan ∧ plan.Takes s fk vals := by
  obtain ⟨parent, k, row, hparent, hrow, hold⟩ := hhas
  obtain ⟨b, hb, hdef, hrewritten, hothers⟩ := h.leaves_rows hs fk.parent parent hparent
  cases hw : OrdMap.find (toLex (fk.parent, k)) (rewritesOf closure) with
  | some w =>
    cases closure with
    | none => cases hw
    | some plan =>
      have hplan := (planReferential_eq_ok h.planned).1
      obtain ⟨image', hof⟩ := planCascade_rewriteOf hs.wellFormed hs.inOrder hplan _
        (OrdMap.mem_of_find hw)
      cases hrow.symm.trans (hof.stored_rows hs hparent)
      by_cases hkept : optEqv (parentKeyOf parent.def_ fk w.2) (some vals) = true
      · exact .inl ⟨b, k, w.2, hb, hrewritten k w hw, hdef ▸ hkept⟩
      -- an effect tells of the form the row ends with
      · obtain ⟨e, he, htable, hfrom, new, hnew, hsame⟩ :=
          (planCascade_telling hs hplan).told _ w hw
        obtain ⟨vs, hvs, hvals⟩ := optEqv_some_iff.1 hold
        obtain ⟨action, hacts⟩ := fkAction_of_moved e htable.symm (hfrom ▸ hvs)
          (fun newRow hrow => by
            cases hnew.symm.trans hrow
            exact Bool.eq_false_iff.2 (fun hon => hkept (optEqv_congr (keyCells_eqv hsame hon)
              hvals)))
        exact .inr ⟨plan, rfl, e, he.resolve_left List.not_mem_nil, parent, action, vs, hparent,
          hacts, hvals⟩
  | none =>
    by_cases hchanged : ∃ d ∈ deltas, table = fk.parent ∧ d.pkKey = k
    · obtain ⟨d, hd, rfl, rfl⟩ := hchanged
      cases h.found.symm.trans hparent
      cases hrow.symm.trans ((h.rows d hd).stored (hs.inOrder _ _ hparent))
      by_cases hkept : optEqv (parentKeyOf image.def_ fk d.newRow) (some vals) = true
      · exact .inl ⟨b, d.pkKey, d.newRow, hb, h.changed_row hs hapart hb hd, hdef ▸ hkept⟩
      · exact .inr (h.takes_of_moved hs hv hk (hkey (List.ne_nil_of_mem hd)) hd hc hfk rfl hold
          hkept)
    · refine .inl ⟨b, k, row, hb, ?_, hdef ▸ hold⟩
      rw [hothers k hw, writeRows_of_ne, hrow]
      intro w hw heq
      split at hw
      · next ht =>
        obtain ⟨d, hd, rfl⟩ := List.mem_map.1 hw
        exact hchanged ⟨d, hd, ht, heq⟩
      · cases hw

/-- A row that refers to a key when a statement is over has not lost it, if it referred before. -/
theorem Change.not_takes (hs : s.Sound) (hi : s.Indexed) (hn : s.FksNamed) {plan : Cascade}
    (hm : s.NoneMissed) (hagrees : plan.Agrees s)
    (h : Change fuel s table image deltas (some plan) s') {t : String} {a : TableImage}
    (ha : OrdMap.find t s.tables = some a) {fk : ForeignKey} (hfk : fk ∈ a.def_.foreignKeys)
    {k : Bytes} {row vals : List Value} (hrow : a.rows k = some row)
    (hrefers : optEqv (fkValues a.def_ fk row) (some vals) = true)
    (hstays : ∀ w, OrdMap.find (toLex (t, k)) plan.rewrites = some w →
      optEqv (fkValues a.def_ fk w.2) (some vals) = true) : ¬ plan.Takes s fk vals := by
  obtain ⟨hplan, hrestrict, -⟩ := planReferential_eq_ok h.planned
  intro htakes
  have hoff := htakes.movesOff hs (hi.consistent hs) hm hrestrict
    (fun c hc => c.movesOff hs hn hplan hagrees hc) ha hfk hrow hrefers
  rw [Cascade.MovesOff, planCascade_deletes hplan, rowRef,
    (hs.wellFormed.tables t a ha).named] at hoff
  rcases hoff with hdel | ⟨w, hw, hmoved⟩
  · cases hdel
  · rw [hstays w hw] at hmoved
    cases hmoved

/-- The key a changed row refers to anew is there after the statement. -/
theorem Change.anew_met (hs : s.Sound) (hi : s.Indexed) (hv : s.RowsValid) (hk : s.Keyed)
    (hkey : deltas ≠ [] → image.def_.KeyUnmanaged)
    (hapart : ∀ d ∈ deltas, OrdMap.find (toLex (table, d.pkKey)) (rewritesOf closure) = none)
    (hfresh : ∀ plan, closure = some plan → plan.Coherent s image.def_ deltas)
    (h : Change fuel s table image deltas closure s') {d : RowDelta} (hd : d ∈ deltas)
    {fk : ForeignKey} (hfk : fk ∈ image.def_.foreignKeys) {vals : List Value}
    (hvals : fkValues image.def_ fk d.newRow = some vals)
    (hanew : optEqv (fkValues image.def_ fk d.oldRow) (some vals) = false) :
    s'.HasKey fk vals := by
  obtain ⟨check, now, sets, bytes, -, -, hchange⟩ := h.rows d hd
  have hcheck := Result.forM_eq_ok.1 (changeRow_eq_ok hchange).2.2.references fk hfk
  rw [checkUpdateFk, show fkValues image.def_ fk d.newRow = some vals from hvals] at hcheck
  dsimp only at hcheck
  rw [if_neg (Bool.eq_false_iff.1 hanew)] at hcheck
  obtain ⟨found, hexists, hfound⟩ := Result.bind_eq_ok.1 hcheck
  rw [rej_eq_ok, require_eq_ok] at hfound
  subst hfound
  have hhas := hasKey_of_exists hs hi hv (fkValues_not_null hvals) hexists
  refine (h.keeps_or_takes hs hv hk hkey hapart h.found hfk hhas).resolve_right ?_
  rintro ⟨plan, rfl, htakes⟩
  exact (hfresh plan rfl).fresh d hd fk hfk vals hvals hanew htakes

/-- A row that an action left with a reference refers to a row of the parent. -/
theorem Change.acted_met (hs : s.Sound) (hn : s.FksNamed) {plan : Cascade}
    (hagrees : plan.Agrees s)
    (hapart : ∀ d ∈ deltas, OrdMap.find (toLex (table, d.pkKey)) plan.rewrites = none)
    (h : Change fuel s table image deltas (some plan) s') {t : String} {a : TableImage}
    (ha : OrdMap.find t s.tables = some a) {fk : ForeignKey} {k : Bytes}
    {w : List Value × List Value} (hw : OrdMap.find (toLex (t, k)) plan.rewrites = some w)
    {vals : List Value} (hvals : fkValues a.def_ fk w.2 = some vals)
    (hacts : plan.ActsOn s t k fk) : s'.HasKey fk vals := by
  obtain ⟨c, hc, rfl, rfl, rfl⟩ := hacts
  have hplan := (planReferential_eq_ok h.planned).1
  obtain ⟨a', ha', hdef⟩ := hs.wellFormed.mem_allTables c.mem
  cases ha.symm.trans ha'
  rw [hdef] at hvals
  have hfound := c.found
  rw [hs.wellFormed.find_allTables] at hfound
  obtain ⟨parent, hparent, hpdef⟩ := Option.map_eq_some_iff.1 hfound
  have hname := (fkAction_eq_some c.acts).1
  rcases (planCascade_telling hs hplan).forms c.eff (.inr hc) with hstart | htells
  -- the row it refers to is a changed one, which the closure leaves alone
  · obtain ⟨change, hchange, heff⟩ := List.mem_map.1 hstart
    obtain ⟨d, hd, rfl⟩ := List.mem_map.1 hchange
    obtain ⟨new, hnew, hkey⟩ := c.lands hs hn hplan hagrees hc hw hvals
    rw [← heff] at hnew hparent hname
    cases hnew
    cases h.found.symm.trans hparent
    obtain ⟨b, hb, hbdef, -⟩ := h.leaves_rows hs table image h.found
    refine ⟨b, d.pkKey, d.newRow, hname ▸ hb, h.changed_row hs hapart hb hd, ?_⟩
    rw [hbdef, hpdef]
    exact hkey
  -- it is a rewritten one
  · obtain ⟨k', w', hw', hkey⟩ := c.arrives hs hn hplan hagrees hw hvals htells
    obtain ⟨b, hb, hbdef, hrewritten, -⟩ := h.leaves_rows hs c.eff.table parent hparent
    refine ⟨b, k', w'.2, hname ▸ hb, hrewritten k' w' hw', ?_⟩
    rw [hbdef, hpdef]
    exact hkey

/-- A foreign key that does not act on a rewritten row refers to what it referred to before. -/
theorem Cascade.Spares.refers (hs : s.Sound) {plan : Cascade}
    {changes : List (String × List Value × List Value)}
    (hplan : planCascade s s.allTables fuel [] changes = .ok plan) (hspares : plan.Spares s)
    {t : String} {a : TableImage} (ha : OrdMap.find t s.tables = some a) {fk : ForeignKey}
    (hfk : fk ∈ a.def_.foreignKeys) {k : Bytes} {w : List Value × List Value}
    (hw : OrdMap.find (toLex (t, k)) plan.rewrites = some w) (hold : a.rows k = some w.1)
    {vals : List Value} (hvals : fkValues a.def_ fk w.2 = some vals)
    (hacts : ¬ plan.ActsOn s t k fk) : optEqv (fkValues a.def_ fk w.1) (some vals) = true := by
  have hself : optEqv (keyCells a.def_ w.2 fk.columns) (some vals) = true :=
    optEqv_some_iff.2 ⟨vals, hvals, valuesEqv_refl vals⟩
  obtain ⟨hmap, hnulls⟩ := keyCells_eq hvals
  refine keyCells_of_cells (fun name hname => ?_) hself
  have hnull := hnulls _ (hmap ▸ List.mem_map_of_mem hname)
  obtain ⟨ci, hci⟩ := Option.isSome_iff_exists.1 (colIndex_of_keyCells hvals name hname)
  rw [CheckExpr.cell, hci, Option.bind_some] at hnull
  rw [CheckExpr.cell, CheckExpr.cell, hci, Option.bind_some, Option.bind_some]
  rcases planCascade_assigned hs hplan hw ci with ⟨v, hv, hcell⟩ | ⟨-, hcell⟩
  · rw [hcell] at hnull ⊢
    rcases hspares t a k w.1 ci v ha hold hv fk hfk ⟨name, hname, hci⟩ with
      hisnull | ⟨u, hu, heq⟩ | hacts'
    · exact absurd hisnull (Bool.eq_false_iff.1 hnull)
    · rw [hu]
      exact heq
    · exact absurd hacts' hacts
  · rw [hcell]
    exact Value.eqv_refl _

/-- **An update keeps references** when its closure is coherent. -/
theorem Change.referential (hs : s.Sound) (hi : s.Indexed) (hv : s.RowsValid) (hk : s.Keyed)
    (hn : s.FksNamed) (hkey : deltas ≠ [] → image.def_.KeyUnmanaged)
    (hcoherent : ∀ plan, closure = some plan →
      plan.Coherent s image.def_ deltas ∧ s.NoneMissed)
    (hr : s.Referential) (h : Change fuel s table image deltas closure s') : s'.Referential := by
  have hapart : ∀ d ∈ deltas,
      OrdMap.find (toLex (table, d.pkKey)) (rewritesOf closure) = none := by
    intro d hd
    cases closure with
    | none => rfl
    | some plan =>
      have hnone := (hcoherent plan rfl).1.apart d hd
      rw [rowRef, (hs.wellFormed.tables table image h.found).named] at hnone
      exact hnone
  -- a reference there was, and there is, is to a key that stays
  have hstays : ∀ t a, OrdMap.find t s.tables = some a → ∀ fk ∈ a.def_.foreignKeys,
      ∀ k old vals, a.rows k = some old → optEqv (fkValues a.def_ fk old) (some vals) = true →
        (∀ w, OrdMap.find (toLex (t, k)) (rewritesOf closure) = some w →
          optEqv (fkValues a.def_ fk w.2) (some vals) = true) →
            ¬ ∃ plan, closure = some plan ∧ plan.Takes s fk vals := by
    rintro t a ha fk hfk k old vals hold hrefers hafter ⟨plan, rfl, htakes⟩
    obtain ⟨hplan, hm⟩ := hcoherent plan rfl
    exact h.not_takes hs hi hn hm hplan.agrees ha hfk hold hrefers hafter htakes
  refine hr.step (fun fk vals => ∃ plan, closure = some plan ∧ plan.Takes s fk vals) (h.wrote hs).1
    (fun u c hc fk hfk vals => h.keeps_or_takes hs hv hk hkey hapart hc hfk) ?_
  intro t a b ha hb fk hfk k row vals hrow hvals
  have hself := optEqv_some_iff.2 ⟨vals, hvals, valuesEqv_refl vals⟩
  obtain ⟨b', hb', -, hrewritten, hothers⟩ := h.leaves_rows hs t a ha
  cases hb.symm.trans hb'
  cases hw : OrdMap.find (toLex (t, k)) (rewritesOf closure) with
  | some w =>
    cases hrow.symm.trans (hrewritten k w hw)
    cases closure with
    | none => cases hw
    | some plan =>
      obtain ⟨hplan, -, -⟩ := planReferential_eq_ok h.planned
      obtain ⟨hcoh, -⟩ := hcoherent plan rfl
      by_cases hacts : plan.ActsOn s t k fk
      · exact .inl (h.acted_met hs hn hcoh.agrees hapart ha hw hvals hacts)
      · obtain ⟨image', hof⟩ := planCascade_rewriteOf hs.wellFormed hs.inOrder hplan _
          (OrdMap.mem_of_find hw)
        have hold := hof.stored_rows hs ha
        have hrefers := hcoh.spares.refers hs hplan ha hfk hw hold hvals hacts
        refine .inr ⟨w.1, hold, hrefers, hstays t a ha fk hfk k w.1 vals hold hrefers ?_⟩
        intro w' hw'
        cases hw.symm.trans hw'
        exact hself
  | none =>
    have hunwritten : ∀ w, OrdMap.find (toLex (t, k)) (rewritesOf closure) = some w →
        optEqv (fkValues a.def_ fk w.2) (some vals) = true := by
      intro w hw'
      cases hw.symm.trans hw'
    rw [hothers k hw] at hrow
    rcases rows_of_writes hrow with hold | ⟨w, hw', rfl, hnew⟩
    · exact .inr ⟨row, hold, hself, hstays t a ha fk hfk k row vals hold hself hunwritten⟩
    split at hw'
    · next ht =>
      subst ht
      cases h.found.symm.trans ha
      obtain ⟨d, hd, rfl⟩ := List.mem_map.1 hw'
      cases hnew
      have hold := (h.rows d hd).stored (hs.inOrder _ _ h.found)
      by_cases hsame : optEqv (fkValues image.def_ fk d.oldRow) (some vals) = true
      · exact .inr ⟨d.oldRow, hold, hsame,
          hstays table image ha fk hfk _ d.oldRow vals hold hsame hunwritten⟩
      · exact .inl (h.anew_met hs hi hv hk hkey hapart (fun plan hplan => (hcoherent plan hplan).1)
          hd hfk hvals (Bool.eq_false_iff.2 hsame))
    · cases hw'

end Updates

end Edb.Catalog
