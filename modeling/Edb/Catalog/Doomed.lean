import Edb.Catalog.Settle

/-!
# The closure of deleted rows

Whatever the order in which the planner meets them, the rows it deletes are the seeds and the
rows that refer to a deleted row by ON DELETE CASCADE, and no others. A row that was to be
rewritten before it was reached by a CASCADE is deleted all the same.
-/

namespace Edb.Catalog

open Edb.Types Edb.Lib

section Doomed

variable {s : CatState} {seeds : List (String × Bytes × List Value)}

/-- The rows a deletion of seeds takes along: the least set of rows with the seeds and, for each
of its rows, the rows that refer to it by ON DELETE CASCADE. -/
inductive Doomed (s : CatState) (seeds : List (String × Bytes × List Value)) :
    RowRef → List Value → Prop
  | seed {t : String} {k : Bytes} {row : List Value} : (t, k, row) ∈ seeds →
      Doomed s seeds (toLex (t, k)) row
  | child {t : String} {k k' : Bytes} {row row' key : List Value} {image : TableImage}
      {child : TableDef} {fk : ForeignKey} {children : List (Bytes × List Value)} :
      Doomed s seeds (toLex (t, k)) row → OrdMap.find t s.tables = some image →
      child ∈ s.allTables → fk ∈ child.foreignKeys → fk.parent = t → fk.onDelete = .cascade →
      parentKeyOf image.def_ fk row = some key → scanChildren s child fk key = .ok children →
      (k', row') ∈ children → Doomed s seeds (rowRef child k') row'

/-- Rows a caller may ask to delete: stored ones. -/
def CatState.StoresSeeds (s : CatState) (seeds : List (String × Bytes × List Value)) : Prop :=
  ∀ seed ∈ seeds, (toLex (seed.1, seed.2.1), seed.2.2) ∈ s.storedRows

/-- The seeds of a delete are stored rows. -/
theorem JobOp.Seeds.stored {op : JobOp} {table : String} {image : TableImage}
    (himage : OrdMap.find table s.tables = some image) (h : op.Seeds table image seeds) :
    s.StoresSeeds seeds := by
  have hmem : ∀ k bytes row, (k, bytes) ∈ image.data → decodePadded image.def_ bytes = .ok row →
      (toLex (table, k), row) ∈ s.storedRows := by
    intro k bytes row hbytes hdec
    exact CatState.mem_storedRows.2
      ⟨(table, image), OrdMap.mem_of_find himage, (k, bytes), hbytes, hdec, rfl⟩
  cases op with
  | delete t pk =>
    obtain ⟨-, pkKey, bytes, row, -, hbytes, hrow, rfl⟩ := h
    intro seed hseed
    rw [List.mem_singleton.1 hseed]
    exact hmem _ _ _ (OrdMap.mem_of_find hbytes) hrow
  | deleteWhere t filter =>
    intro seed hseed
    obtain ⟨bytes, ht, hbytes, hrow⟩ := seedRows_eq_ok h.2 seed hseed
    rw [ht]
    exact hmem _ _ _ hbytes hrow
  | _ => exact absurd h id

/-- Doomed rows are stored rows. -/
theorem Doomed.stored (hs : s.Sound) (hseeds : s.StoresSeeds seeds) {r : RowRef}
    {row : List Value} (h : Doomed s seeds r row) : (r, row) ∈ s.storedRows := by
  cases h with
  | seed hmem => exact hseeds _ hmem
  | @child _ _ k' _ row' _ _ child _ _ _ _ hchild _ _ _ _ hscan hmem =>
    obtain ⟨image, himage, hdef⟩ := hs.wellFormed.mem_allTables hchild
    obtain ⟨image', himage', hrows⟩ := scanChildren_eq_ok hscan
    cases himage.symm.trans himage'
    obtain ⟨bytes, hbytes, hdec, -⟩ := hrows _ hmem
    rw [← hdef] at hdec
    exact CatState.mem_storedRows.2
      ⟨(child.name, image), OrdMap.mem_of_find himage, (k', bytes), hbytes, hdec, rfl⟩

/-- What is known of a closure of deleted rows. `done` are the seeds taken so far, `waiting` the
effects whose children are still to be met. -/
structure Closing (s : CatState) (seeds done : List (String × Bytes × List Value)) (plan : Cascade)
    (waiting : List CascadeEffect) : Prop where
  doomed : ∀ r row, OrdMap.find r plan.deletes = some row → Doomed s seeds r row
  seeded : ∀ seed ∈ done, OrdMap.find (toLex (seed.1, seed.2.1)) plan.deletes = some seed.2.2
  traced : ∀ eff ∈ waiting, eff.newRow = none →
    ∃ k, OrdMap.find (toLex (eff.table, k)) plan.deletes = some eff.oldRow
  pending : ∀ r row, OrdMap.find r plan.deletes = some row →
    ⟨(ofLex r).1, row, none⟩ ∈ waiting ∨ ⟨(ofLex r).1, row, none⟩ ∈ plan.effects
  closed : ∀ c : ChildStep s s.allTables, c.eff ∈ plan.effects → c.Dooms →
    OrdMap.find (rowRef c.child c.pkKey) plan.deletes = some c.row
  apart : ∀ r, (OrdMap.find r plan.deletes).isSome = true → OrdMap.find r plan.rewrites = none

variable {done : List (String × Bytes × List Value)} {plan : Cascade}
  {waiting queue : List CascadeEffect}

/-- The row a step deletes is doomed when the row that triggers it is. -/
theorem Closing.dooms (hs : s.Sound) (h : Closing s seeds done plan waiting)
    (c : ChildStep s s.allTables) (heff : c.eff ∈ waiting) (hc : c.Dooms) :
    Doomed s seeds (rowRef c.child c.pkKey) c.row := by
  obtain ⟨haction, hnone⟩ := hc
  obtain ⟨k, hk⟩ := h.traced c.eff heff hnone
  obtain ⟨hparent, hdelete, -⟩ := fkAction_eq_some c.acts
  have hfound := c.found
  rw [hs.wellFormed.find_allTables] at hfound
  obtain ⟨image, himage, hdef⟩ := Option.map_eq_some_iff.1 hfound
  obtain ⟨children, hscan, hmem⟩ := c.scanned
  exact .child (h.doomed _ _ hk) himage c.mem c.fkMem hparent ((hdelete hnone).symm.trans haction)
    (hdef ▸ fkAction_key c.acts) hscan hmem

/-- A step deletes what it is to delete and keeps the rest. -/
theorem Closing.step (hs : s.Sound) (hseeds : s.StoresSeeds seeds) (c : ChildStep s s.allTables)
    (h : Closing s seeds done plan (c.eff :: queue)) :
    Closing s seeds done (c.plan plan).1 (c.eff :: (queue ++ (c.plan plan).2)) ∧
      (c.Dooms → OrdMap.find (rowRef c.child c.pkKey) (c.plan plan).1.deletes = some c.row) ∧
      ∀ r row, OrdMap.find r plan.deletes = some row →
        OrdMap.find r (c.plan plan).1.deletes = some row := by
  rcases planChild_cases c.parent c.child c.fk c.eff c.action plan c.pkKey c.row with
    ⟨hdel, hplan⟩ | ⟨hdel, haction, hnone, hplan⟩ | ⟨hdel, hcase, new, hplan, hnew⟩ <;>
    rw [ChildStep.plan, hplan]
  -- the child is deleted already: nothing is queued, and the row deleted is the one stored
  · rw [List.append_nil]
    refine ⟨h, fun hc => ?_, fun _ _ hfind => hfind⟩
    obtain ⟨row, hrow⟩ := Option.isSome_iff_exists.1 hdel
    rw [hrow, hs.storedRows_unique ((h.doomed _ _ hrow).stored hs hseeds) (c.mem_storedRows hs)]
  -- the child is deleted now: it joins the deletes and waits in the queue for its own children
  · have hself := h.dooms hs c (by simp) ⟨haction, hnone⟩
    have hkeep : ∀ r row, OrdMap.find r plan.deletes = some row →
        OrdMap.find r (OrdMap.insert (rowRef c.child c.pkKey) c.row plan.deletes) = some row := by
      intro r row hrow
      rw [OrdMap.find_insert, if_neg, hrow]
      rintro rfl
      rw [hdel] at hrow
      cases hrow
    have hnow : OrdMap.find (rowRef c.child c.pkKey)
        (OrdMap.insert (rowRef c.child c.pkKey) c.row plan.deletes) = some c.row := by
      rw [OrdMap.find_insert, if_pos rfl]
    refine ⟨⟨?_, ?_, ?_, ?_, ?_, ?_⟩, fun _ => hnow, hkeep⟩
    · intro r row hrow
      rw [OrdMap.find_insert] at hrow
      split at hrow
      · next href =>
        cases hrow
        exact href ▸ hself
      · exact h.doomed r row hrow
    · intro seed hseed
      exact hkeep _ _ (h.seeded seed hseed)
    · intro eff heff hnone'
      rw [← List.cons_append] at heff
      rcases List.mem_append.1 heff with heff | heff
      · obtain ⟨k, hk⟩ := h.traced eff heff hnone'
        exact ⟨k, hkeep _ _ hk⟩
      · rw [List.mem_singleton.1 heff]
        exact ⟨c.pkKey, hnow⟩
    · intro r row hrow
      rw [← List.cons_append, List.mem_append]
      rw [OrdMap.find_insert] at hrow
      split at hrow
      · next href =>
        cases hrow
        cases href
        exact .inl (.inr (by simp [rowRef]))
      · exact (h.pending r row hrow).imp .inl id
    · intro c' hc' hdooms
      exact hkeep _ _ (h.closed c' hc' hdooms)
    · intro r hr
      rw [OrdMap.find_insert] at hr
      rw [OrdMap.find_erase]
      split at hr
      · next href => rw [if_pos href]
      · next href =>
        rw [if_neg href]
        exact h.apart r hr
  -- the child is rewritten: the deletes stay, and what is queued has a new row
  · refine ⟨⟨h.doomed, h.seeded, ?_, ?_, h.closed, ?_⟩, fun hc => absurd hc hcase,
      fun _ _ hfind => hfind⟩
    · intro eff heff hnone'
      rw [← List.cons_append] at heff
      rcases List.mem_append.1 heff with heff | heff
      · exact h.traced eff heff hnone'
      · rw [hnew eff heff] at hnone'
        cases hnone'
    · intro r row hrow
      rw [← List.cons_append, List.mem_append]
      exact (h.pending r row hrow).imp .inl id
    · intro r hr
      rw [OrdMap.find_insert, if_neg, h.apart r hr]
      rintro rfl
      rw [show OrdMap.find (rowRef c.child c.pkKey) plan.deletes = none from hdel] at hr
      cases hr

/-- Seeding keeps what is known and takes every seed. -/
theorem seedDeletes_closing (hs : s.Sound) (hseeds : s.StoresSeeds seeds)
    {rest : List (String × Bytes × List Value)} (hsub : ∀ seed ∈ rest, seed ∈ seeds)
    (hrewrites : plan.rewrites = []) (h : Closing s seeds done plan queue) :
    Closing s seeds (done ++ rest) (seedDeletes (plan, queue) rest).1
      (seedDeletes (plan, queue) rest).2 := by
  induction rest generalizing done plan queue with
  | nil =>
    rw [List.append_nil]
    exact h
  | cons seed rest ih =>
    obtain ⟨t, k, row⟩ := seed
    have hstored : (toLex (t, k), row) ∈ s.storedRows := hseeds _ (hsub _ List.mem_cons_self)
    -- a seed given twice has the same row
    have hkeep : ∀ r row', OrdMap.find r plan.deletes = some row' →
        OrdMap.find r (OrdMap.insert (toLex (t, k)) row plan.deletes) = some row' := by
      intro r row' hrow'
      rw [OrdMap.find_insert]
      split
      · next href =>
        subst href
        rw [hs.storedRows_unique hstored ((h.doomed _ _ hrow').stored hs hseeds)]
      · exact hrow'
    have hnow : OrdMap.find (toLex (t, k)) (OrdMap.insert (toLex (t, k)) row plan.deletes) =
        some row := by
      rw [OrdMap.find_insert, if_pos rfl]
    rw [seedDeletes, List.append_cons]
    let plan' := { plan with deletes := OrdMap.insert (toLex (t, k)) row plan.deletes }
    have hrewrites' : plan'.rewrites = [] := hrewrites
    apply ih (fun seed hseed => hsub seed (List.mem_cons_of_mem _ hseed)) hrewrites'
    refine ⟨?_, ?_, ?_, ?_, ?_, ?_⟩
    · intro r row' hrow'
      rw [OrdMap.find_insert] at hrow'
      split at hrow'
      · next href =>
        cases hrow'
        exact href ▸ .seed (hsub _ List.mem_cons_self)
      · exact h.doomed r row' hrow'
    · intro seed hseed
      rcases List.mem_append.1 hseed with hseed | hseed
      · exact hkeep _ _ (h.seeded seed hseed)
      · rw [List.mem_singleton.1 hseed]
        exact hnow
    · intro eff heff hnone
      split at heff
      · obtain ⟨k', hk'⟩ := h.traced eff heff hnone
        exact ⟨k', hkeep _ _ hk'⟩
      · rcases List.mem_append.1 heff with heff | heff
        · obtain ⟨k', hk'⟩ := h.traced eff heff hnone
          exact ⟨k', hkeep _ _ hk'⟩
        · rw [List.mem_singleton.1 heff]
          exact ⟨k, hnow⟩
    · intro r row' hrow'
      cases hfind : OrdMap.find (toLex (t, k)) plan.deletes with
      | some old =>
        rw [Option.isSome_some, if_pos rfl]
        apply h.pending r row'
        rw [OrdMap.find_insert] at hrow'
        split at hrow'
        · next href =>
          cases hrow'
          subst href
          rw [hfind, hs.storedRows_unique hstored ((h.doomed _ _ hfind).stored hs hseeds)]
        · exact hrow'
      | none =>
        rw [Option.isSome_none, if_neg Bool.false_ne_true, List.mem_append]
        rw [OrdMap.find_insert] at hrow'
        split at hrow'
        · next href =>
          cases hrow'
          subst href
          exact .inl (.inr List.mem_cons_self)
        · exact (h.pending r row' hrow').imp .inl id
    · intro c hc hdooms
      exact hkeep _ _ (h.closed c hc hdooms)
    · intro r _
      show OrdMap.find r plan.rewrites = none
      rw [hrewrites]
      rfl

/-- A finished closure of stored rows. -/
theorem planCascade_closing (hs : s.Sound) (hseeds : s.StoresSeeds seeds) {fuel : Nat}
    (h : planCascade s s.allTables fuel seeds [] = .ok plan) : Closing s seeds seeds plan [] := by
  have hrule : StepRule (fun eff plan queue => Closing s seeds seeds plan (eff :: queue))
      (fun (c : ChildStep s s.allTables) plan => c.Dooms →
        OrdMap.find (rowRef c.child c.pkKey) plan.deletes = some c.row) := by
    constructor
    · intro c plan queue hJ
      exact (hJ.step hs hseeds c).1
    · intro c plan queue hJ
      exact (hJ.step hs hseeds c).2.1
    · intro c c' plan queue _ hJ hdid hdooms
      exact (hJ.step hs hseeds c').2.2 _ _ (hdid hdooms)
  -- the seeds are the only deletes at first, and all of them are queued
  have hstart : Closing s seeds ([] ++ seeds) (seedDeletes (⟨[], [], []⟩, []) seeds).1
      (seedDeletes (⟨[], [], []⟩, []) seeds).2 := by
    apply seedDeletes_closing hs hseeds (fun _ h => h) rfl
    refine ⟨?_, ?_, ?_, ?_, ?_, ?_⟩
    · intro r row hrow
      cases hrow
    · intro seed hseed
      cases hseed
    · intro eff heff
      cases heff
    · intro r row hrow
      cases hrow
    · intro c hc
      cases hc
    · intro r hr
      cases hr
  rw [planCascade] at h
  dsimp only at h
  rw [List.map_nil, List.append_nil] at h
  refine hrule.planLoop (I := Closing s seeds seeds) ?_ (fun _ _ _ h => h) ?_ h hstart
  · intro plan eff queue hmissing hI
    refine ⟨hI.doomed, hI.seeded, fun e he => hI.traced e (List.mem_cons_of_mem _ he), ?_,
      hI.closed, hI.apart⟩
    intro r row hrow
    rcases hI.pending r row hrow with hwait | hdone
    · rcases List.mem_cons.1 hwait with rfl | hwait
      · -- the table of a deleted row is known
        obtain ⟨e, he, _, -, -, href⟩ := CatState.mem_storedRows.1
          ((hI.doomed _ _ hrow).stored hs hseeds)
        have hfind := (OrdMap.find_eq_some_iff hs.wellFormed.sorted).2 he
        rw [hs.wellFormed.find_allTables, show (ofLex r).1 = e.1 from
          congrArg (fun r => (ofLex r).1) href, hfind] at hmissing
        cases hmissing
      · exact .inl hwait
    · exact .inr hdone
  · -- the effect leaves the queue once all its children are planned
    intro plan eff queue hJ hdid
    refine ⟨hJ.doomed, hJ.seeded, fun e he => hJ.traced e (List.mem_cons_of_mem _ he), ?_, ?_,
      hJ.apart⟩
    · intro r row hrow
      rcases hJ.pending r row hrow with hwait | hdone
      · rcases List.mem_cons.1 hwait with rfl | hwait
        · exact .inr (List.mem_append_right _ List.mem_cons_self)
        · exact .inl hwait
      · exact .inr (List.mem_append_left _ hdone)
    · intro c hc hdooms
      rcases List.mem_append.1 hc with hc | hc
      · exact hJ.closed c hc hdooms
      · exact hdid c (List.mem_singleton.1 hc) hdooms

/-- A closure that is worked off has every doomed row. -/
theorem Closing.complete (hs : s.Sound) (h : Closing s seeds seeds plan []) {r : RowRef}
    {row : List Value} (hr : Doomed s seeds r row) : OrdMap.find r plan.deletes = some row := by
  induction hr with
  | seed hmem => exact h.seeded _ hmem
  | @child t k k' row row' key image child fk children _ himage hchild hfk hparent hdelete hkey
      hscan hmem ih =>
    have heffect : (⟨t, row, none⟩ : CascadeEffect) ∈ plan.effects := by
      rcases h.pending _ _ ih with hwait | hdone
      · cases hwait
      · exact hdone
    have hacts : fkAction image.def_ fk ⟨t, row, none⟩ = some (.cascade, key) := by
      unfold fkAction
      dsimp only
      rw [if_neg (not_not.2 hparent), hkey, hdelete]
    let step : ChildStep s s.allTables := ⟨⟨t, row, none⟩, image.def_, child, fk, .cascade, key, k',
      row', by rw [hs.wellFormed.find_allTables, himage]; rfl, hchild, hfk, hacts,
      (fun h => by cases h), children, hscan, hmem⟩
    exact h.closed step heffect ⟨rfl, rfl⟩

/-- The closure of deleted rows as it should be. -/
structure DeleteClosure (s : CatState) (seeds : List (String × Bytes × List Value))
    (plan : Cascade) : Prop where
  deletes : ∀ r row, OrdMap.find r plan.deletes = some row ↔ Doomed s seeds r row
  apart : ∀ r, (OrdMap.find r plan.deletes).isSome = true → OrdMap.find r plan.rewrites = none
  rewrites : ∀ r w, OrdMap.find r plan.rewrites = some w → ∃ image, RewriteOf s image (r, w)

/-- **The delete closure.** In every state of a run and for all stored rows as seeds, the planner
ends, and a plan it returns deletes the doomed rows and no others, rewrites none of them, and
rewrites stored rows in referencing columns only. -/
theorem delete_closure {ops : List JobOp} (h : Run ops s) (hseeds : s.StoresSeeds seeds) :
    (∃ n, ∀ fuel, n ≤ fuel → planCascade s s.allTables fuel seeds [] ≠ .error .outOfFuel) ∧
    ∀ fuel plan, planCascade s s.allTables fuel seeds [] = .ok plan →
      DeleteClosure s seeds plan := by
  refine ⟨planCascade_delete_settles h.sound seeds, ?_⟩
  intro fuel plan hplan
  have hclosing := planCascade_closing h.sound hseeds hplan
  refine ⟨fun r row => ⟨hclosing.doomed r row, hclosing.complete h.sound⟩, hclosing.apart, ?_⟩
  intro r w hw
  exact planCascade_rewriteOf h.sound.wellFormed h.sound.inOrder hplan _ (OrdMap.mem_of_find hw)

end Doomed

/-! ### A row reached twice -/

/-- Workers, with a boss among them. -/
def workersDef : TableDef :=
  ⟨"workers", [ColumnDef.new "id" .i64, { ColumnDef.new "boss" .i64 with nullable := true }],
    ["id"], [], [], [⟨"of_boss", ["boss"], "workers", ["id"], .cascade, .restrict⟩]⟩

/-- Desks go with their keeper, and stay without an owner. -/
def desksDef : TableDef :=
  ⟨"desks", [ColumnDef.new "id" .i64, { ColumnDef.new "owner" .i64 with nullable := true },
      ColumnDef.new "keeper" .i64], ["id"], [], [],
    [⟨"of_owner", ["owner"], "workers", ["id"], .setNull, .restrict⟩,
      ⟨"of_keeper", ["keeper"], "workers", ["id"], .cascade, .restrict⟩]⟩

/-- A boss who owns a desk that their worker keeps. -/
def sharedDesk : List JobOp :=
  [.createTable workersDef, .createTable desksDef,
    .insert "workers" [[("id", .i64 1)], [("id", .i64 2), ("boss", .i64 1)]],
    .insert "desks" [[("id", .i64 7), ("owner", .i64 1), ("keeper", .i64 2)]]]

/-- The seed of a delete by key. -/
def seedOf (image : TableImage) (table : String) (pk : List Value) :
    Option (List (String × Bytes × List Value)) := do
  let pkKey ← (encodePk table image.def_ pk).toOption
  let bytes ← OrdMap.find pkKey image.data
  let row ← (decodePadded image.def_ bytes).toOption
  pure [(table, pkKey, row)]

theorem seedOf_eq_some {image : TableImage} {table : String} {pk : List Value}
    {seeds : List (String × Bytes × List Value)} (h : seedOf image table pk = some seeds) :
    (JobOp.delete table pk).Seeds table image seeds := by
  obtain ⟨pkKey, hpk, h⟩ := Option.bind_eq_some_iff.1 h
  obtain ⟨bytes, hbytes, h⟩ := Option.bind_eq_some_iff.1 h
  obtain ⟨row, hrow, h⟩ := Option.bind_eq_some_iff.1 h
  exact ⟨rfl, pkKey, bytes, row, Result.toOption_eq_some hpk, hbytes,
    Result.toOption_eq_some hrow, (Option.some.inj h).symm⟩

/-- What deleting the boss starts from, and its plan. -/
def bossPlan (s : CatState) :
    Option (TableImage × List (String × Bytes × List Value) × Cascade) := do
  let image ← OrdMap.find "workers" s.tables
  let seeds ← seedOf image "workers" [.i64 1]
  let plan ← (planCascade s s.allTables 9 seeds []).toOption
  pure (image, seeds, plan)

/-- Everything goes, nothing is rewritten. -/
def allGo (s : CatState) : Bool :=
  (bossPlan s).any (fun p => p.2.2.deletes.length = 3 && p.2.2.rewrites.isEmpty)

/-- The desk loses its owner first, and is deleted with its keeper. -/
theorem delete_closure_desk : ∃ s image seeds plan, Run sharedDesk s ∧
    (JobOp.delete "workers" [.i64 1]).Seeds "workers" image seeds ∧
    planCascade s s.allTables 9 seeds [] = .ok plan ∧ plan.deletes.length = 3 ∧
    DeleteClosure s seeds plan := by
  obtain ⟨s, hrun, htest⟩ := RunWhere.eval (C := Free) tickingEnv 9 sharedDesk allGo
    (fun op _ env s => meets_free _ _ _ _) (by decide +kernel)
  obtain ⟨⟨image, seeds, plan⟩, hboss, htest⟩ := (Option.any_eq_true _ _).1 htest
  obtain ⟨image', himage, h⟩ := Option.bind_eq_some_iff.1 hboss
  obtain ⟨seeds', hseeds, h⟩ := Option.bind_eq_some_iff.1 h
  obtain ⟨plan', hplan, h⟩ := Option.bind_eq_some_iff.1 h
  cases h
  have hplan := Result.toOption_eq_some hplan
  have hseeds := seedOf_eq_some hseeds
  exact ⟨s, image, seeds, plan, hrun.run, hseeds, hplan,
    of_decide_eq_true (Bool.and_eq_true_iff.1 htest).1,
    (delete_closure hrun.run (hseeds.stored himage)).2 9 plan hplan⟩

end Edb.Catalog
