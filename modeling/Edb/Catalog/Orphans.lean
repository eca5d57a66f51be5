import Edb.Catalog.Referential

/-!
# No orphans

A delete plans what becomes of the rows that refer to the keys it takes away. Its effects tell of
every row it deletes or rewrites, and a row that refers to a key an effect takes away is deleted,
rewritten off the key, or refuses the statement (`Cascade.Takes.movesOff`). So a delete keeps
references (`Removal.referential`).
-/

namespace Edb.Catalog

open Edb.Types Edb.Lib

/-! ## Equal cells -/

/-- Equal rows have equal cells. -/
theorem cell_eqv {d : TableDef} {row row' : List Value} (h : valuesEqv row row' = true)
    (name : String) : ((CheckExpr.cell d row name).getD .null).eqv
      ((CheckExpr.cell d row' name).getD .null) = true := by
  obtain ⟨hlen, hget⟩ := List.forall₂_iff_get.1 (valuesEqv_iff.1 h)
  rw [CheckExpr.cell, CheckExpr.cell]
  cases d.colIndex name with
  | none => rfl
  | some ci =>
    rw [Option.bind_some, Option.bind_some]
    by_cases hci : ci < row.length
    · rw [List.getElem?_eq_getElem hci, List.getElem?_eq_getElem (hlen ▸ hci)]
      exact hget ci hci (hlen ▸ hci)
    · rw [List.getElem?_eq_none (by omega), List.getElem?_eq_none (by omega)]
      rfl

theorem optEqv_congr {o : Option (List Value)} {vals vals' : List Value}
    (h : optEqv o (some vals) = true) (heq : valuesEqv vals vals' = true) :
    optEqv o (some vals') = true := by
  obtain ⟨vs, rfl, hvs⟩ := optEqv_some_iff.1 h
  exact valuesEqv_trans hvs heq

/-- A key of a row is one of a row with equal cells. -/
theorem keyCells_of_cells {d : TableDef} {row row' : List Value} {names : List String}
    {vals : List Value} (hcells : ∀ name ∈ names, ((CheckExpr.cell d row' name).getD .null).eqv
      ((CheckExpr.cell d row name).getD .null) = true)
    (h : optEqv (keyCells d row names) (some vals) = true) :
    optEqv (keyCells d row' names) (some vals) = true := by
  obtain ⟨vs, hvs, hvals⟩ := optEqv_some_iff.1 h
  obtain ⟨hmap, hnulls⟩ := keyCells_eq hvs
  have hcells : valuesEqv (names.map (fun name => (CheckExpr.cell d row' name).getD .null)) vs =
      true := by
    rw [← hmap, valuesEqv_iff, List.forall₂_map_left_iff, List.forall₂_map_right_iff,
      List.forall₂_same]
    exact hcells
  exact optEqv_some_iff.2 ⟨_, keyCells_eq_map (none_null_of_eqv hcells hnulls),
    valuesEqv_trans hcells hvals⟩

/-- Rows with one key have equal cells in its columns. -/
theorem cells_of_keyCells {d : TableDef} {row row' : List Value} {names : List String}
    {vals : List Value} (h : optEqv (keyCells d row names) (some vals) = true)
    (h' : optEqv (keyCells d row' names) (some vals) = true) :
    ∀ name ∈ names, ((CheckExpr.cell d row name).getD .null).eqv
      ((CheckExpr.cell d row' name).getD .null) = true := by
  obtain ⟨vs, hvs, hvals⟩ := optEqv_some_iff.1 h
  obtain ⟨vs', hvs', hvals'⟩ := optEqv_some_iff.1 h'
  have heq := valuesEqv_trans hvals (valuesEqv_symm hvals')
  rw [← (keyCells_eq hvs).1, ← (keyCells_eq hvs').1, valuesEqv_iff, List.forall₂_map_left_iff,
    List.forall₂_map_right_iff, List.forall₂_same] at heq
  exact heq

/-- A key of a row is one of every equal row. -/
theorem keyCells_eqv {d : TableDef} {row row' : List Value} {names : List String}
    {vals : List Value} (heq : valuesEqv row row' = true)
    (h : optEqv (keyCells d row names) (some vals) = true) :
    optEqv (keyCells d row' names) (some vals) = true :=
  keyCells_of_cells (fun name _ => Value.eqv_symm (cell_eqv heq name)) h

/-- A key of a row some of whose cells became NULL is one it had. -/
theorem Nulled.keyCells_some {d : TableDef} {oldRow newRow : List Value} (h : Nulled oldRow newRow)
    {names : List String} {vals : List Value}
    (hnew : Catalog.keyCells d newRow names = some vals) :
    Catalog.keyCells d oldRow names = some vals := by
  obtain ⟨hmap, hnulls⟩ := keyCells_eq hnew
  have hcells : names.map (fun name => (CheckExpr.cell d oldRow name).getD .null) = vals := by
    rw [← hmap]
    refine List.map_congr_left (fun name hname => ?_)
    have hcell : CheckExpr.cell d newRow name = CheckExpr.cell d oldRow name ∨
        CheckExpr.cell d newRow name = some .null := by
      rw [CheckExpr.cell, CheckExpr.cell]
      cases d.colIndex name with
      | none => exact .inl rfl
      | some ci => exact h ci
    rcases hcell with hcell | hcell
    · rw [hcell]
    · have hnull := hnulls _ (hmap ▸ List.mem_map_of_mem hname)
      rw [hcell] at hnull
      cases hnull
  rw [← hcells]
  apply keyCells_eq_map
  rw [hcells]
  exact hnulls

/-- A row whose foreign key is set to NULL refers to nothing. -/
theorem fkValues_setNull {d : TableDef} {fk : ForeignKey} {base : List Value}
    (hnamed : fk.columns ≠ []) (hcolumns : ∀ name ∈ fk.columns, (d.colIndex name).isSome)
    (hlen : base.length = d.columns.length) :
    fkValues d fk (setFkColumns d base fk.columns []) = none := by
  obtain ⟨name, hname⟩ := List.exists_mem_of_ne_nil _ hnamed
  obtain ⟨ci, hci⟩ := Option.isSome_iff_exists.1 (hcolumns name hname)
  have hlt : ci < base.length := hlen ▸ TableDef.colIndex_lt hci
  obtain ⟨j, _, -, -, hnull⟩ := setFkColumns_assigned [] hlt ⟨name, hname, hci⟩
  by_contra hne
  obtain ⟨vals, hvals⟩ := Option.ne_none_iff_exists'.1 hne
  obtain ⟨hmap, hnulls⟩ := keyCells_eq hvals
  have hnot := hnulls _ (hmap ▸ List.mem_map_of_mem hname)
  rw [CheckExpr.cell, hci, Option.bind_some, hnull] at hnot
  cases hnot

/-! ## The closure of a delete -/

/-- Every foreign key has columns. -/
def CatState.FksNamed (s : CatState) : Prop :=
  ∀ t image, OrdMap.find t s.tables = some image → ∀ fk ∈ image.def_.foreignKeys, fk.columns ≠ []

/-- An effect tells of a rewritten row, and what becomes of it. -/
def CascadeEffect.Tells (e : CascadeEffect) (r : RowRef) (w : List Value × List Value) : Prop :=
  e.table = (ofLex r).1 ∧ e.oldRow = w.1 ∧ ∃ new, e.newRow = some new ∧ valuesEqv new w.2 = true

/-- A step records no effect; the loop does when all its steps are made. -/
theorem ChildStep.effects {s : CatState} (c : ChildStep s s.allTables) (plan : Cascade) :
    (c.plan plan).1.effects = plan.effects := by
  rcases planChild_cases c.parent c.child c.fk c.eff c.action plan c.pkKey c.row with
    ⟨-, hplan⟩ | ⟨-, -, -, hplan⟩ | ⟨-, -, new, hplan, -⟩ <;> rw [ChildStep.plan, hplan]

section Told

variable {s : CatState} {plan : Cascade} {queue : List CascadeEffect}

/-- Every rewritten row is told of by an effect, by one that waits or by one worked off. -/
def Told (plan : Cascade) (waiting : List CascadeEffect) : Prop :=
  ∀ r w, OrdMap.find r plan.rewrites = some w →
    ∃ e, (e ∈ waiting ∨ e ∈ plan.effects) ∧ e.Tells r w

/-- A rewritten row that a step leaves alone is told of after it. -/
theorem Told.later {waiting more : List CascadeEffect} {plan' : Cascade} (h : Told plan waiting)
    (heffects : plan'.effects = plan.effects) {r : RowRef} {w : List Value × List Value}
    (hw : OrdMap.find r plan.rewrites = some w) :
    ∃ e, (e ∈ waiting ++ more ∨ e ∈ plan'.effects) ∧ e.Tells r w := by
  obtain ⟨e, he, htells⟩ := h r w hw
  rw [heffects]
  exact ⟨e, he.imp (List.mem_append_left _) id, htells⟩

/-- A step tells of the row it rewrites, unless an effect tells of that form already. -/
theorem Told.step (hs : s.Sound) (c : ChildStep s s.allTables) (hrewrites : Rewrites s plan)
    (h : Told plan (c.eff :: queue)) :
    Told (c.plan plan).1 (c.eff :: (queue ++ (c.plan plan).2)) := by
  rw [← List.cons_append]
  rcases planChild_cases c.parent c.child c.fk c.eff c.action plan c.pkKey c.row with
    ⟨-, hplan⟩ | ⟨-, -, -, hplan⟩ | ⟨hdel, hcase, -⟩
  · rw [ChildStep.plan, hplan, List.append_nil]
    exact h
  · rw [ChildStep.plan, hplan]
    intro r w hw
    rw [OrdMap.find_erase] at hw
    split at hw
    · cases hw
    · exact h.later rfl hw
  · rw [ChildStep.plan, planChild_rewrites c.row hdel hcase]
    intro r w hw
    rw [OrdMap.find_insert] at hw
    split at hw
    · next href =>
      cases hw
      subst href
      split
      · next hagain =>
        -- the form is one that was told before
        obtain ⟨form, hform, heq⟩ := (Option.any_eq_true _ _).1 hagain
        obtain ⟨w, hw, rfl⟩ := Option.map_eq_some_iff.1 hform
        obtain ⟨e, he, htable, hold, told, htold, hsame⟩ := h _ w hw
        obtain ⟨image, hof⟩ := hrewrites _ (OrdMap.mem_of_find hw)
        rw [c.sameRow hs.wellFormed hs.inOrder hof] at hold
        exact ⟨e, by rw [List.append_nil]; exact he, htable, hold, told, htold,
          valuesEqv_trans hsame heq⟩
      · exact ⟨_, .inl (List.mem_append_right _ List.mem_cons_self), rfl,
          rfl, _, rfl, valuesEqv_refl _⟩
    · exact h.later rfl hw

/-- An effect of a table that is not there tells of no row. -/
theorem Told.skip (hs : s.WellFormed) (hrewrites : Rewrites s plan) {eff : CascadeEffect}
    (hmissing : s.allTables.find? (fun t => t.name = eff.table) = none)
    (h : Told plan (eff :: queue)) : Told plan queue := by
  intro r w hw
  obtain ⟨e, he, htells⟩ := h r w hw
  refine ⟨e, he.imp (fun he => ?_) id, htells⟩
  rcases List.mem_cons.1 he with heq | he
  · obtain ⟨image, hof⟩ := hrewrites _ (OrdMap.mem_of_find hw)
    rw [hs.find_allTables, ← heq, htells.1, hof.found] at hmissing
    cases hmissing
  · exact he

/-- An effect is recorded when its children are met. -/
theorem Told.record {eff : CascadeEffect} (h : Told plan (eff :: queue)) :
    Told { plan with effects := plan.effects ++ [eff] } queue := by
  intro r w hw
  obtain ⟨e, he, htells⟩ := h r w hw
  refine ⟨e, ?_, htells⟩
  rw [List.mem_append, List.mem_singleton]
  rcases he with he | he
  · exact (List.mem_cons.1 he).symm.imp id .inr
  · exact .inr (.inl he)

end Told

section Nulling

variable {s : CatState} {plan : Cascade} {queue : List CascadeEffect}

/-- The row a step meets is deleted, or refers to nothing by the step's foreign key. -/
def ChildStep.Off (c : ChildStep s s.allTables) (plan : Cascade) : Prop :=
  (OrdMap.find (rowRef c.child c.pkKey) plan.deletes).isSome = true ∨
    ∃ w, OrdMap.find (rowRef c.child c.pkKey) plan.rewrites = some w ∧
      fkValues c.child c.fk w.2 = none

/-- The row a step of a delete rewrites, from itself or from what an earlier action left of it. -/
theorem OnlyNulls.rewritten (hs : s.Sound) (c : ChildStep s s.allTables)
    (h : OnlyNulls s plan (c.eff :: queue)) :
    ∃ base, Catalog.rewritten c.parent c.child c.fk c.eff c.action plan c.pkKey c.row =
        setFkColumns c.child base c.fk.columns [] ∧ base.length = c.child.columns.length ∧
      ∀ w, OrdMap.find (rowRef c.child c.pkKey) plan.rewrites = some w → w = (c.row, base) := by
  obtain ⟨base, hbase, hlen, hcase, -⟩ := c.base hs.wellFormed hs.inOrder h.rewrites
  obtain ⟨image, bytes, -, hdef, -, hdec⟩ := c.stored hs.wellFormed
  refine ⟨base, ?_, ?_, ?_⟩
  · rw [Catalog.rewritten, hbase, c.rewrittenKey_nil (h.queued c.eff List.mem_cons_self)]
  · rw [hlen, decodePadded_length hdec, hdef]
  · intro w hw
    rcases hcase with ⟨hnone, -⟩ | hfind
    · rw [hnone] at hw
      cases hw
    · rw [hfind] at hw
      exact (Option.some.inj hw).symm

/-- A step moves the row it meets off its key, and what is off a key stays off it. -/
theorem OnlyNulls.off (hs : s.Sound) (hn : s.FksNamed) (c : ChildStep s s.allTables)
    (h : OnlyNulls s plan (c.eff :: queue)) :
    c.Off (c.plan plan).1 ∧
      ∀ c' : ChildStep s s.allTables, c'.Off plan → c'.Off (c.plan plan).1 := by
  rcases planChild_cases c.parent c.child c.fk c.eff c.action plan c.pkKey c.row with
    ⟨hdel, hplan⟩ | ⟨-, -, -, hplan⟩ | ⟨hdel, hcase, -⟩
  · rw [ChildStep.plan, hplan]
    exact ⟨.inl hdel, fun _ h => h⟩
  · rw [ChildStep.plan, hplan]
    refine ⟨.inl (by rw [OrdMap.find_insert, if_pos rfl]; rfl), fun c' hc' => ?_⟩
    by_cases href : rowRef c.child c.pkKey = rowRef c'.child c'.pkKey
    · exact .inl (by rw [OrdMap.find_insert, if_pos href]; rfl)
    · unfold ChildStep.Off
      rw [OrdMap.find_insert, if_neg href, OrdMap.find_erase, if_neg href]
      exact hc'
  · obtain ⟨base, hnew, hlen, hearlier⟩ := h.rewritten hs c
    obtain ⟨image, himage, hdef⟩ := hs.wellFormed.mem_allTables c.mem
    rw [ChildStep.plan, planChild_rewrites c.row hdel hcase, hnew]
    refine ⟨.inr ⟨_, by rw [OrdMap.find_insert, if_pos rfl], ?_⟩, fun c' hc' => ?_⟩
    · have hfk : c.fk ∈ image.def_.foreignKeys := hdef ▸ c.fkMem
      have hcolumns := ((hs.wellFormed.tables _ image himage).def_.foreignKeys c.fk hfk).columns
      exact fkValues_setNull (hn _ image himage c.fk hfk) (hdef ▸ hcolumns) hlen
    · refine hc'.imp id ?_
      rintro ⟨w, hw, hnone⟩
      rw [OrdMap.find_insert]
      by_cases href : rowRef c.child c.pkKey = rowRef c'.child c'.pkKey
      · rw [if_pos href]
        refine ⟨_, rfl, ?_⟩
        have hw' := hearlier w (href ▸ hw)
        rw [hw'] at hnone
        -- a NULL is not overwritten
        by_contra hne
        obtain ⟨vals, hvals⟩ := Option.ne_none_iff_exists'.1 hne
        have := (setFkColumns_nulled c.child base c.fk.columns).keyCells_some hvals
        exact Option.some_ne_none _ (this.symm.trans hnone)
      · rw [if_neg href]
        exact ⟨w, hw, hnone⟩

theorem seedDeletes_effects (seeds : List (String × Bytes × List Value)) (plan : Cascade)
    (queue : List CascadeEffect) :
    (seedDeletes (plan, queue) seeds).1.effects = plan.effects := by
  induction seeds generalizing plan queue with
  | nil => rfl
  | cons seed seeds ih =>
    rw [seedDeletes]
    exact ih _ _

/-- Nothing is rewritten when a delete starts. -/
theorem Told.seeds (seeds : List (String × Bytes × List Value)) :
    Told (seedDeletes (⟨[], [], []⟩, []) seeds).1 (seedDeletes (⟨[], [], []⟩, []) seeds).2 := by
  intro r w hw
  rw [(seedDeletes_eq seeds ⟨[], [], []⟩ []).1] at hw
  cases hw

/-- **The closure of a delete.** It sets cells of the rows it rewrites to NULL, its effects tell of
each of them, and every row that refers to one of its effects is off the key. -/
theorem planCascade_nulling (hs : s.Sound) (hn : s.FksNamed) {fuel : Nat}
    {seeds : List (String × Bytes × List Value)}
    (h : planCascade s s.allTables fuel seeds [] = .ok plan) :
    OnlyNulls s plan [] ∧ Told plan [] ∧
      ∀ c : ChildStep s s.allTables, c.eff ∈ plan.effects → c.Off plan := by
  have hrule : @StepRule s s.allTables (fun eff plan queue =>
      OnlyNulls s plan (eff :: queue) ∧ Told plan (eff :: queue) ∧
        ∀ c : ChildStep s s.allTables, c.eff ∈ plan.effects → c.Off plan)
      (fun c plan => c.Off plan) := by
    constructor
    · rintro c plan queue ⟨hnulls, htold, hoff⟩
      have hstep := hnulls.step hs c (hnulls.queued c.eff List.mem_cons_self)
      refine ⟨hstep, htold.step hs c hnulls.rewrites, fun c' hc' => ?_⟩
      exact (hnulls.off hs hn c).2 c' (hoff c' (c.effects plan ▸ hc'))
    · exact fun c plan queue hJ => (hJ.1.off hs hn c).1
    · exact fun c c' plan queue _ hJ hc => (hJ.1.off hs hn c').2 c hc
  rw [planCascade] at h
  dsimp only at h
  rw [List.map_nil, List.append_nil] at h
  refine hrule.planLoop (I := fun plan queue => OnlyNulls s plan queue ∧ Told plan queue ∧
    ∀ c : ChildStep s s.allTables, c.eff ∈ plan.effects → c.Off plan) ?_ (fun _ _ _ h => h) ?_ h ?_
  · rintro plan eff queue hmissing ⟨hnulls, htold, hoff⟩
    exact ⟨hnulls.pop.2, htold.skip hs.wellFormed hnulls.rewrites hmissing, hoff⟩
  · rintro plan eff queue ⟨hnulls, htold, hoff⟩ hdid
    have hpopped := hnulls.pop.2
    refine ⟨⟨hpopped.rewrites, hpopped.forms, hpopped.queued⟩, htold.record, fun c hc => ?_⟩
    rcases List.mem_append.1 hc with hc | hc
    · exact hoff c hc
    · exact hdid c (List.mem_singleton.1 hc)
  · refine ⟨.seeds seeds, .seeds seeds, fun c hc => ?_⟩
    rw [seedDeletes_effects] at hc
    cases hc

end Nulling

/-! ## The closure of an update -/

section Meeting

variable {s : CatState} {plan : Cascade}

/-- The row a step meets was dealt with. -/
def ChildStep.Met (c : ChildStep s s.allTables) (plan : Cascade) : Prop :=
  (OrdMap.find (rowRef c.child c.pkKey) plan.deletes).isSome = true ∨
    (OrdMap.find (rowRef c.child c.pkKey) plan.rewrites).isSome = true

/-- A step deals with the row it meets, and what was dealt with stays so. -/
theorem ChildStep.met (c : ChildStep s s.allTables) (plan : Cascade) :
    c.Met (c.plan plan).1 ∧
      ∀ c' : ChildStep s s.allTables, c'.Met plan → c'.Met (c.plan plan).1 := by
  rcases planChild_cases c.parent c.child c.fk c.eff c.action plan c.pkKey c.row with
    ⟨hdel, hplan⟩ | ⟨-, -, -, hplan⟩ | ⟨-, -, new, hplan, -⟩ <;> rw [ChildStep.plan, hplan]
  · exact ⟨.inl hdel, fun _ h => h⟩
  · refine ⟨.inl (by rw [OrdMap.find_insert, if_pos rfl]; rfl), fun c' h => ?_⟩
    by_cases href : rowRef c.child c.pkKey = rowRef c'.child c'.pkKey
    · exact .inl (by rw [OrdMap.find_insert, if_pos href]; rfl)
    · unfold ChildStep.Met
      rw [OrdMap.find_insert, if_neg href, OrdMap.find_erase, if_neg href]
      exact h
  · refine ⟨.inr (by rw [OrdMap.find_insert, if_pos rfl]; rfl), fun c' h => h.imp id (fun h => ?_)⟩
    rw [OrdMap.find_insert]
    split
    · rfl
    · exact h

/-- The closure of an update records every change, and deals with every row that refers to one of
its effects. -/
theorem planCascade_meets (hs : s.WellFormed) {fuel : Nat}
    {changes : List (String × List Value × List Value)}
    (h : planCascade s s.allTables fuel [] changes = .ok plan) :
    (∀ e ∈ changeEffects changes, (OrdMap.find e.table s.tables).isSome = true →
      e ∈ plan.effects) ∧
      ∀ c : ChildStep s s.allTables, c.eff ∈ plan.effects → c.Met plan := by
  -- what was met stays met, since a step never takes back a delete or a rewrite
  have hrule : @StepRule s s.allTables (fun eff plan queue =>
      (∀ e ∈ changeEffects changes, (OrdMap.find e.table s.tables).isSome = true →
        e ∈ eff :: queue ∨ e ∈ plan.effects) ∧
        ∀ c : ChildStep s s.allTables, c.eff ∈ plan.effects → c.Met plan)
      (fun c plan => c.Met plan) := by
    constructor
    · rintro c plan queue ⟨hstart, hmet⟩
      rw [c.effects plan, ← List.cons_append]
      exact ⟨fun e he hfound => (hstart e he hfound).imp (List.mem_append_left _) id,
        fun c' hc' => (c.met plan).2 c' (hmet c' hc')⟩
    · exact fun c plan _ _ => (c.met plan).1
    · exact fun c c' plan _ _ _ hc => (c'.met plan).2 c hc
  suffices hdone : (∀ e ∈ changeEffects changes, (OrdMap.find e.table s.tables).isSome = true →
      e ∈ [] ∨ e ∈ plan.effects) ∧
      ∀ c : ChildStep s s.allTables, c.eff ∈ plan.effects → c.Met plan from
    ⟨fun e he hfound => (hdone.1 e he hfound).resolve_left List.not_mem_nil, hdone.2⟩
  refine hrule.planLoop (I := fun plan queue =>
    (∀ e ∈ changeEffects changes, (OrdMap.find e.table s.tables).isSome = true →
      e ∈ queue ∨ e ∈ plan.effects) ∧
      ∀ c : ChildStep s s.allTables, c.eff ∈ plan.effects → c.Met plan)
    ?_ (fun _ _ _ h => h) ?_ h ?_
  · rintro plan eff queue hmissing ⟨hstart, hmet⟩
    refine ⟨fun e he hfound => (hstart e he hfound).imp (fun he => ?_) id, hmet⟩
    rcases List.mem_cons.1 he with rfl | he
    -- an effect of an unknown table is dropped
    · rw [hs.find_allTables, Option.map_eq_none_iff] at hmissing
      rw [hmissing] at hfound
      cases hfound
    · exact he
  · rintro plan eff queue ⟨hstart, hmet⟩ hdid
    refine ⟨fun e he hfound => ?_, fun c hc => ?_⟩
    · rw [List.mem_append, List.mem_singleton]
      rcases hstart e he hfound with he | he
      · exact (List.mem_cons.1 he).symm.imp id .inr
      · exact .inr (.inl he)
    · rcases List.mem_append.1 hc with hc | hc
      · exact hmet c hc
      · exact hdid c (List.mem_singleton.1 hc)
  · exact ⟨fun e he _ => .inl (List.mem_append_right _ he), fun c hc => absurd hc List.not_mem_nil⟩

end Meeting

/-! ## Rows that refer to a key that goes -/

/-- Every row that refers by a foreign key is held by the index the foreign key is looked up by. -/
def CatState.NoneMissed (s : CatState) : Prop :=
  ∀ t image, OrdMap.find t s.tables = some image → ∀ fk ∈ image.def_.foreignKeys,
    ∀ idx, image.def_.indexes.find? (fun i => fk.columns.isPrefixOf i.columns) = some idx →
      ∀ k row, image.rows k = some row → (fkValues image.def_ fk row).isSome = true →
        ¬ MissedBy image.def_ fk idx row

/-- An effect of a closure takes a key away from a foreign key. -/
def Cascade.Takes (s : CatState) (plan : Cascade) (fk : ForeignKey) (vals : List Value) : Prop :=
  ∃ e ∈ plan.effects, ∃ parent action oldKey, OrdMap.find fk.parent s.tables = some parent ∧
    fkAction parent.def_ fk e = some (action, oldKey) ∧ valuesEqv oldKey vals = true

/-- A closure deletes a row, or rewrites it off a key. -/
def Cascade.MovesOff (plan : Cascade) (child : TableDef) (fk : ForeignKey) (k : Bytes)
    (vals : List Value) : Prop :=
  (OrdMap.find (rowRef child k) plan.deletes).isSome = true ∨
    ∃ w, OrdMap.find (rowRef child k) plan.rewrites = some w ∧
      optEqv (fkValues child fk w.2) (some vals) = false

theorem CatState.Indexed.consistent {s : CatState} (hs : s.Sound) (hi : s.Indexed) :
    ∀ t a, OrdMap.find t s.tables = some a → a.Consistent := fun t a ha =>
  (indexed_iff_consistent (hs.inOrder t a ha) (hs.readable t a ha)).1 (hi t a ha)

section Referring

variable {s : CatState} {plan : Cascade} {t : String} {a : TableImage} {fk : ForeignKey}
  {k : Bytes} {row vals : List Value}

/-- A key that a row of the parent had is taken by an effect of the row that leaves it another. -/
theorem fkAction_of_moved {parent : TableDef} (eff : CascadeEffect) {oldKey : List Value}
    (htable : fk.parent = eff.table) (hold : parentKeyOf parent fk eff.oldRow = some oldKey)
    (hnew : ∀ newRow, eff.newRow = some newRow →
      optEqv (parentKeyOf parent fk newRow) (some oldKey) = false) :
    ∃ action, fkAction parent fk eff = some (action, oldKey) := by
  unfold fkAction
  rw [if_neg (not_not.2 htable), hold]
  dsimp only
  cases hrow : eff.newRow with
  | none => exact ⟨_, rfl⟩
  | some newRow =>
    dsimp only
    rw [hnew newRow hrow, if_neg Bool.false_ne_true]
    exact ⟨_, rfl⟩

/-- A foreign key does nothing about a key that the row keeps. -/
theorem fkAction_moved {parent : TableDef} {eff : CascadeEffect} {action : RefAction}
    {oldKey newRow : List Value} (h : fkAction parent fk eff = some (action, oldKey))
    (hnew : eff.newRow = some newRow) :
    ¬ optEqv (parentKeyOf parent fk newRow) (some oldKey) = true := by
  intro hon
  have hkey := fkAction_key h
  unfold fkAction at h
  rw [if_neg (not_not.2 (fkAction_eq_some h).1), hkey, hnew] at h
  dsimp only at h
  rw [if_pos hon] at h
  cases h

/-- A RESTRICT foreign key lets a statement pass only when the rows on the key go or leave it. -/
theorem movesOff_of_restrict {parent child : TableDef} {eff : CascadeEffect} {oldKey : List Value}
    {rows : List (Bytes × List Value)} (h : checkCascadeRestrict s s.allTables plan = .ok ())
    (heff : eff ∈ plan.effects)
    (hparent : s.allTables.find? (fun t => t.name = eff.table) = some parent)
    (hchild : child ∈ s.allTables) (hfk : fk ∈ child.foreignKeys)
    (hacts : fkAction parent fk eff = some (.restrict, oldKey))
    (hscan : scanChildren s child fk oldKey = .ok rows) (hmem : (k, row) ∈ rows)
    (hrefers : optEqv (fkValues child fk row) (some oldKey) = true) :
    plan.MovesOff child fk k oldKey := by
  have h := Result.forM_eq_ok.1 h eff heff
  rw [restrictEffect, hparent] at h
  have h := Result.forM_eq_ok.1 (Result.forM_eq_ok.1 h child hchild) fk hfk
  rw [restrictFk, hacts] at h
  obtain ⟨rows', hscan', h⟩ := Result.bind_eq_ok.1 h
  cases hscan.symm.trans hscan'
  rw [rej_eq_ok, require_eq_ok, Bool.not_eq_true', List.any_eq_false] at h
  have hgone := h (k, row) hmem
  rw [Bool.not_eq_true, survives, Bool.and_eq_false_iff] at hgone
  rcases hgone with hdel | hoff
  · refine .inl ?_
    rw [Option.isNone_eq_false_iff] at hdel
    exact hdel
  · cases hw : OrdMap.find (rowRef child k) plan.rewrites with
    | none =>
      rw [show OrdMap.find (toLex (child.name, k)) plan.rewrites = none from hw] at hoff
      rw [show optEqv (fkValues child fk row) (some oldKey) = false from hoff] at hrefers
      cases hrefers
    | some w =>
      rw [show OrdMap.find (toLex (child.name, k)) plan.rewrites = some w from hw] at hoff
      exact .inr ⟨w, hw, hoff⟩

/-- **No orphans.** A row that refers to a key that an effect takes away is deleted or moved off it,
if every row that an action of a foreign key reaches is. -/
theorem Cascade.Takes.movesOff (hs : s.Sound)
    (hc : ∀ t a, OrdMap.find t s.tables = some a → a.Consistent) (hm : s.NoneMissed)
    (hrestrict : checkCascadeRestrict s s.allTables plan = .ok ())
    (hdid : ∀ c : ChildStep s s.allTables, c.eff ∈ plan.effects →
      plan.MovesOff c.child c.fk c.pkKey c.oldKey)
    (h : plan.Takes s fk vals) (ha : OrdMap.find t s.tables = some a)
    (hfk : fk ∈ a.def_.foreignKeys) (hrow : a.rows k = some row)
    (hrefers : optEqv (fkValues a.def_ fk row) (some vals) = true) :
    plan.MovesOff a.def_ fk k vals := by
  obtain ⟨eff, heff, parent, action, oldKey, hparent, hacts, heq⟩ := h
  have hname := (hs.wellFormed.tables t a ha).named
  have hrefers' := optEqv_congr hrefers (valuesEqv_symm heq)
  have hset : (fkValues a.def_ fk row).isSome = true := by
    obtain ⟨vs, hvs, -⟩ := optEqv_some_iff.1 hrefers
    rw [hvs]
    rfl
  -- the row refers to the old key, so the lookup of that key finds it
  obtain ⟨rows, hscan, hmem⟩ := mem_scanChildren (hname.symm ▸ ha) (hc t a ha) hrow hrefers'
    (fun idx hidx => hm t a ha fk hfk idx hidx k row hrow hset)
  have hfound : s.allTables.find? (fun t => t.name = eff.table) = some parent.def_ := by
    rw [hs.wellFormed.find_allTables, ← (fkAction_eq_some hacts).1, hparent]
    rfl
  have hchild : a.def_ ∈ s.allTables := by
    have hfind := hs.wellFormed.find_allTables t
    rw [ha] at hfind
    exact List.mem_of_find?_eq_some hfind
  have hoff : plan.MovesOff a.def_ fk k oldKey := by
    -- a RESTRICT was checked at the end, any other action was a step of the loop
    by_cases haction : action = .restrict
    · subst haction
      exact movesOff_of_restrict hrestrict heff hfound hchild hfk hacts hscan hmem hrefers'
    · exact hdid ⟨eff, parent.def_, a.def_, fk, action, oldKey, k, row, hfound, hchild, hfk, hacts,
        haction, rows, hscan, hmem⟩ heff
  refine hoff.imp id ?_
  rintro ⟨w, hw, hoff⟩
  refine ⟨w, hw, ?_⟩
  rw [Bool.eq_false_iff] at hoff ⊢
  exact fun hon => hoff (optEqv_congr hon (valuesEqv_symm heq))

end Referring

/-! ## Deletes -/

section Deletes

variable {fuel : Nat} {s s' : CatState} {table : String}
  {seeds : List (String × Bytes × List Value)} {plan : Cascade}

/-- A rewritten row is stored. -/
theorem RewriteOf.stored_rows (hs : s.Sound) {t : String} {k : Bytes}
    {w : List Value × List Value} {a image : TableImage} (ha : OrdMap.find t s.tables = some a)
    (h : RewriteOf s image (toLex (t, k), w)) : a.rows k = some w.1 := by
  cases ha.symm.trans h.found
  obtain ⟨bytes, hmem, hdec⟩ := h.stored
  exact (TableImage.rows_eq_some (hs.inOrder _ _ ha)).2 ⟨bytes, hmem, hdec⟩

/-- The rows a closure writes in a table: those it deletes and those it rewrites. -/
theorem mem_closureWrites {t : String} {w : RowWrite} (hsorted : OrdMap.Sorted plan.rewrites)
    (hsorted' : OrdMap.Sorted plan.deletes) : w ∈ writesOn t plan.writes ↔
      (∃ row, OrdMap.find (toLex (t, w.pkKey)) plan.deletes = some row ∧
        w = ⟨w.pkKey, some row, none⟩) ∨
      ∃ r, OrdMap.find (toLex (t, w.pkKey)) plan.rewrites = some r ∧
        w = ⟨w.pkKey, some r.1, some r.2⟩ := by
  rw [mem_writesOn, Cascade.writes, List.mem_append, List.mem_map, List.mem_map]
  refine or_congr ?_ ?_
  · constructor
    · rintro ⟨d, hd, heq⟩
      obtain ⟨rfl, rfl⟩ := Prod.mk.inj heq
      exact ⟨d.2, (OrdMap.find_eq_some_iff hsorted').2 hd, rfl⟩
    · rintro ⟨row, hrow, heq⟩
      exact ⟨_, OrdMap.mem_of_find hrow, by rw [heq]; rfl⟩
  · constructor
    · rintro ⟨r, hr, heq⟩
      obtain ⟨rfl, rfl⟩ := Prod.mk.inj heq
      exact ⟨r.2, (OrdMap.find_eq_some_iff hsorted).2 hr, rfl⟩
    · rintro ⟨r, hr, heq⟩
      exact ⟨_, OrdMap.mem_of_find hr, by rw [heq]; rfl⟩

/-- What a closure leaves of a table. -/
structure Cascade.Leaves (plan : Cascade) (t : String) (a b : TableImage) : Prop where
  def_ : b.def_ = a.def_
  deleted : ∀ k, (OrdMap.find (toLex (t, k)) plan.deletes).isSome = true → b.rows k = none
  rewritten : ∀ k w, OrdMap.find (toLex (t, k)) plan.rewrites = some w → b.rows k = some w.2
  others : ∀ k, OrdMap.find (toLex (t, k)) plan.deletes = none →
    OrdMap.find (toLex (t, k)) plan.rewrites = none → b.rows k = a.rows k

/-- A delete leaves in each table the rows that its plan does not delete, rewritten as planned. -/
theorem Removal.leaves (hs : s.Sound) (h : Removal fuel s table seeds plan s') :
    ∀ t a, OrdMap.find t s.tables = some a →
      ∃ b, OrdMap.find t s'.tables = some b ∧ plan.Leaves t a b := by
  intro t a ha
  obtain ⟨b, hb, hab⟩ := (h.wrote hs).2 t a ha
  have hsorted := planCascade_sorted h.planned
  have hmem : ∀ w, w ∈ writesOn t plan.writes ↔ _ :=
    fun w => mem_closureWrites hsorted.1 hsorted.2
  have hnodup : ((writesOn t plan.writes).map RowWrite.pkKey).Nodup := by
    rw [Cascade.writes, writesOn_append]
    exact h.writes_nodup hs ha
  refine ⟨b, hb, hab.def_, ?_, ?_, ?_⟩
  · intro k hk
    obtain ⟨row, hrow⟩ := Option.isSome_iff_exists.1 hk
    rw [hab.rows]
    exact writeRows_of_mem hnodup ((hmem ⟨k, some row, none⟩).2 (.inl ⟨row, hrow, rfl⟩))
  · intro k w hw
    rw [hab.rows]
    exact writeRows_of_mem hnodup ((hmem ⟨k, some w.1, some w.2⟩).2 (.inr ⟨w, hw, rfl⟩))
  · intro k hdel hrew
    rw [hab.rows, writeRows_of_ne]
    rintro w hw rfl
    rcases (hmem w).1 hw with ⟨row, hrow, -⟩ | ⟨r, hr, -⟩
    · rw [hdel] at hrow
      cases hrow
    · rw [hrew] at hr
      cases hr

/-- A key that a delete does not keep is taken by one of its effects. -/
theorem Removal.keeps_or_takes (hs : s.Sound) (hn : s.FksNamed)
    (h : Removal fuel s table seeds plan s') {fk : ForeignKey} {vals : List Value}
    (hkey : s.HasKey fk vals) : s'.HasKey fk vals ∨ plan.Takes s fk vals := by
  obtain ⟨parent, k, row, hparent, hrow, hkey⟩ := hkey
  obtain ⟨b, hb, hleaves⟩ := h.leaves hs fk.parent parent hparent
  obtain ⟨vs, hvs, hvals⟩ := optEqv_some_iff.1 hkey
  have hclosing := planCascade_closing hs h.seeds h.planned
  -- an effect of the row takes the key unless the row has it afterwards
  have htaken : ∀ e ∈ plan.effects, e.table = fk.parent → e.oldRow = row →
      (∀ newRow, e.newRow = some newRow →
        optEqv (parentKeyOf parent.def_ fk newRow) (some vs) = false) →
      plan.Takes s fk vals := by
    intro e he htable hold hnew
    obtain ⟨action, hacts⟩ := fkAction_of_moved e htable.symm (hold ▸ hvs) hnew
    exact ⟨e, he, parent, action, vs, hparent, hacts, hvals⟩
  cases hdel : OrdMap.find (toLex (fk.parent, k)) plan.deletes with
  | some row' =>
    have hrow' := hclosing.stored hs h.seeds hparent hdel
    cases hrow.symm.trans hrow'
    rcases hclosing.pending _ _ hdel with hwait | hdone
    · cases hwait
    · exact .inr (htaken _ hdone rfl rfl (fun _ hnone => by cases hnone))
  | none =>
    cases hrew : OrdMap.find (toLex (fk.parent, k)) plan.rewrites with
    | none =>
      refine .inl ⟨b, k, row, hb, (hleaves.others k hdel hrew).trans hrow, ?_⟩
      rw [hleaves.def_]
      exact hkey
    | some w =>
      obtain ⟨hnulls, htold, -⟩ := planCascade_nulling hs hn h.planned
      obtain ⟨image, hof⟩ := hnulls.rewrites _ (OrdMap.mem_of_find hrew)
      cases hrow.symm.trans (hof.stored_rows hs hparent)
      by_cases hkept : optEqv (parentKeyOf parent.def_ fk w.2) (some vs) = true
      · refine .inl ⟨b, k, w.2, hb, hleaves.rewritten k w hrew, ?_⟩
        rw [hleaves.def_]
        exact optEqv_congr hkept hvals
      · obtain ⟨e, he, htable, hold, new, hnew, hsame⟩ := htold _ w hrew
        rcases he with he | he
        · cases he
        · refine .inr (htaken e he htable hold (fun newRow hnewRow => ?_))
          cases hnew.symm.trans hnewRow
          rw [Bool.eq_false_iff]
          exact fun hon => hkept (keyCells_eqv hsame hon)

/-- A row that refers after a delete was there, referred, and was not moved off. -/
theorem Removal.left (hs : s.Sound) (hn : s.FksNamed) (h : Removal fuel s table seeds plan s')
    {t : String} {a b : TableImage} (ha : OrdMap.find t s.tables = some a)
    (hb : OrdMap.find t s'.tables = some b) {fk : ForeignKey} {k : Bytes} {row vals : List Value}
    (hrow : b.rows k = some row) (hvals : fkValues a.def_ fk row = some vals) :
    ∃ old, a.rows k = some old ∧ fkValues a.def_ fk old = some vals ∧
      ¬ plan.MovesOff a.def_ fk k vals := by
  obtain ⟨b', hb', hleaves⟩ := h.leaves hs t a ha
  cases hb.symm.trans hb'
  have hname := (hs.wellFormed.tables t a ha).named
  cases hdel : OrdMap.find (toLex (t, k)) plan.deletes with
  | some old =>
    rw [hleaves.deleted k (by rw [hdel]; rfl)] at hrow
    cases hrow
  | none =>
    cases hrew : OrdMap.find (toLex (t, k)) plan.rewrites with
    | none =>
      refine ⟨row, (hleaves.others k hdel hrew).symm.trans hrow, hvals, ?_⟩
      rw [Cascade.MovesOff, rowRef, hname, hdel, hrew]
      rintro (hdel | ⟨w, hw, -⟩)
      · cases hdel
      · cases hw
    | some w =>
      obtain ⟨hnulls, -⟩ := planCascade_nulling hs hn h.planned
      obtain ⟨image, hof⟩ := hnulls.rewrites _ (OrdMap.mem_of_find hrew)
      cases hrow.symm.trans (hleaves.rewritten k w hrew)
      refine ⟨w.1, hof.stored_rows hs ha,
        (hnulls.forms _ (OrdMap.mem_of_find hrew)).keyCells_some hvals, ?_⟩
      rw [Cascade.MovesOff, rowRef, hname, hdel, hrew]
      rintro (hdel | ⟨w', hw', hmoved⟩)
      · cases hdel
      · cases hw'
        rw [hvals] at hmoved
        exact absurd (valuesEqv_refl vals) (Bool.eq_false_iff.1 hmoved)

/-- **A delete keeps references.** -/
theorem Removal.referential (hs : s.Sound) (hi : s.Indexed) (hn : s.FksNamed) (hm : s.NoneMissed)
    (hr : s.Referential) (h : Removal fuel s table seeds plan s') : s'.Referential := by
  have hdid : ∀ c : ChildStep s s.allTables, c.eff ∈ plan.effects →
      plan.MovesOff c.child c.fk c.pkKey c.oldKey := by
    intro c hc
    refine ((planCascade_nulling hs hn h.planned).2.2 c hc).imp id ?_
    rintro ⟨w, hw, hnone⟩
    refine ⟨w, hw, ?_⟩
    rw [hnone]
    rfl
  refine hr.step (plan.Takes s) (h.wrote hs).1
    (fun _ _ _ fk _ vals hkey => h.keeps_or_takes hs hn hkey) ?_
  intro t a b ha hb fk hfk k row vals hrow hvals
  obtain ⟨old, hold, hrefers, hstays⟩ := h.left hs hn ha hb hrow hvals
  have heqv := optEqv_some_iff.2 ⟨vals, hrefers, valuesEqv_refl vals⟩
  exact .inr ⟨old, hold, heqv, fun htakes => hstays
    (htakes.movesOff hs (hi.consistent hs) hm h.restricted hdid ha hfk hold heqv)⟩

end Deletes

end Edb.Catalog
