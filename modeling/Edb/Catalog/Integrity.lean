import Edb.Catalog.Coherent

/-!
# Referential integrity of every run

Every job keeps references: an insert and an update look for the parents of what they write, a
definition job moves no row, and a delete takes care of what refers to the keys it takes away. An
update does when its closure is coherent, as one that rewrites no row is when no change refers anew
to a key that goes.
-/

namespace Edb.Catalog

open Edb.Types Edb.Lib

/-! ## Updates -/

/-- A closure of changes rewrites no row, and no change refers anew to a key the closure takes
away. -/
structure Cascade.Steady (s : CatState) (def_ : TableDef) (deltas : List RowDelta)
    (plan : Cascade) : Prop where
  rewrites : plan.rewrites = []
  fresh : ∀ d ∈ deltas, ∀ fk ∈ def_.foreignKeys, ∀ vals, fkValues def_ fk d.newRow = some vals →
    optEqv (fkValues def_ fk d.oldRow) (some vals) = false → ¬ plan.Takes s fk vals

/-- A closure that rewrites no row makes no action. -/
theorem Cascade.Steady.coherent {fuel : Nat} {s : CatState} {def_ : TableDef}
    {deltas : List RowDelta} {plan : Cascade} {changes : List (String × List Value × List Value)}
    (hs : s.Sound) (hplan : planCascade s s.allTables fuel [] changes = .ok plan)
    (h : plan.Steady s def_ deltas) : plan.Coherent s def_ deltas := by
  have hnone : ∀ t k ci v, ¬ plan.Assigns s t k ci v := by
    rintro t k ci v ⟨c, hc, -⟩
    have hmet := (planCascade_meets hs.wellFormed hplan).2 c hc
    rw [ChildStep.Met, planCascade_deletes hplan, h.rewrites] at hmet
    exact hmet.elim (fun hdel => by cases hdel) (fun hrew => by cases hrew)
  refine ⟨fun d _ => ?_, fun t k ci v _ hv => absurd hv (hnone t k ci v),
    fun t _ k _ ci v _ _ hv => absurd hv (hnone t k ci v), h.fresh⟩
  rw [h.rewrites]
  rfl

/-! ## Runs -/

/-- The closure of an update is steady. -/
def UpdatesSteady : JobCond := fun env fuel s op =>
  ∀ table image deltas plan, OrdMap.find table s.tables = some image →
    op.Targets env s table image deltas →
    planReferential fuel s table image.def_ deltas = .ok (some plan) →
    plan.Steady s image.def_ deltas

/-- The closure of an update is coherent. -/
def UpdatesCoherent : JobCond := fun env fuel s op =>
  ∀ table image deltas plan, OrdMap.find table s.tables = some image →
    op.Targets env s table image deltas →
    planReferential fuel s table image.def_ deltas = .ok (some plan) →
    plan.Coherent s image.def_ deltas

/-- A job that plans a closure starts from a state whose lookups of children miss no row. -/
def LooksSee : JobCond := fun env fuel s op =>
  ∀ plan, op.Plans env fuel s plan → s.NoneMissed

/-- What runs that keep foreign keys ask of their jobs. -/
abbrev KeepsForeignKeys : JobCond :=
  UpdatesApart.and
    (UpdatesUnmanagedKeys.and (KeepsReferencedKeys.and (UpdatesCoherent.and LooksSee)))

/-- What it takes where no closure of an update rewrites a row. -/
abbrev KeepsReferences : JobCond :=
  UpdatesApart.and (UpdatesUnmanagedKeys.and (KeepsReferencedKeys.and (UpdatesSteady.and LooksSee)))

section Runs

variable {s s' : CatState}

/-- The foreign keys of a validated definition have columns. -/
theorem TableDef.fks_named {d : TableDef} (h : d.validate = .ok ()) :
    ∀ fk ∈ d.foreignKeys, fk.columns ≠ [] := by
  unfold TableDef.validate at h
  simp only [invalid, Result.error_bind, Result.guard_eq_ok] at h
  obtain ⟨-, -, h⟩ := h
  obtain ⟨⟨⟩, -, h⟩ := Result.bind_eq_ok.1 h
  simp only [Result.guard_eq_ok] at h
  obtain ⟨-, -, -, h⟩ := h
  obtain ⟨⟨⟩, -, h⟩ := Result.bind_eq_ok.1 h
  obtain ⟨⟨⟩, -, h⟩ := Result.bind_eq_ok.1 h
  obtain ⟨⟨⟩, -, hfks⟩ := Result.bind_eq_ok.1 h
  intro fk hfk
  obtain ⟨before, hcheck⟩ := eachAfter_forall hfks fk hfk
  unfold TableDef.validateFk at hcheck
  simp only [invalid, Result.error_bind, Result.guard_eq_ok] at hcheck
  simpa using hcheck.2.2.1

theorem CatState.FksNamed.same (h : s.FksNamed) (hs : s.SameDefs s') : s'.FksNamed := by
  intro t b hb fk hfk
  have hdef := hs t
  rw [hb, Option.map_some] at hdef
  obtain ⟨a, ha, heq⟩ := Option.map_eq_some_iff.1 hdef.symm
  exact h t a ha fk (heq ▸ hfk)

/-- After a definition every foreign key has columns still. -/
theorem Definition.fksNamed {op : JobOp} (hn : s.FksNamed) (h : Definition s op s') :
    s'.FksNamed := by
  cases h with
  | create _ hvalid _ _ htables _ =>
    intro t image himage
    rw [htables, OrdMap.find_insert] at himage
    split at himage
    · cases himage
      exact TableDef.fks_named hvalid
    · exact hn t image himage
  | drop =>
    intro t image himage
    rw [OrdMap.find_erase] at himage
    split at himage
    · cases himage
    · exact hn t image himage
  | @alter _ u a b ha haltered =>
    intro t image himage
    have himage := (OrdMap.find_insert _ _ _ _).symm.trans himage
    split at himage
    · cases himage
      rw [haltered.foreignKeys]
      exact hn u a ha
    · exact hn t image himage

/-- What runs that keep references keep. -/
structure CatState.Referring (s : CatState) : Prop where
  sound : s.Sound
  indexed : s.Indexed
  rowsValid : s.RowsValid
  keyed : s.Keyed
  fksNamed : s.FksNamed
  referential : s.Referential

theorem referring_empty : CatState.empty.Referring := by
  refine ⟨sound_empty, ?_, ?_, ?_, ?_, ?_⟩
  · intro t image himage
    cases himage
  · intro t image himage
    cases himage
  · intro t image fk parent himage
    cases himage
  · intro t image himage
    cases himage
  · intro t image himage
    cases himage

/-- An update of rows that are there asks that the engine manages no part of their key. -/
theorem JobOp.Targets.keyUnmanaged {env : Env} {fuel : Nat} {table : String} {image : TableImage}
    {deltas : List RowDelta} {op : JobOp} (hC : UpdatesUnmanagedKeys env fuel s op)
    (himage : OrdMap.find table s.tables = some image)
    (h : op.Targets env s table image deltas) (hne : deltas ≠ []) : image.def_.KeyUnmanaged := by
  cases op with
  | update t pk sets =>
    obtain ⟨rfl, -⟩ := h
    exact hC image himage
  | updateWhere t policy =>
    obtain ⟨rfl, hmatch⟩ := h
    exact hC image himage (matchRows_nil hmatch hne)
  | _ => exact h.elim

/-- Every job that meets the conditions keeps references. -/
theorem referring_kept : Keeps KeepsForeignKeys CatState.Referring := by
  intro envs fuel s op out s' hb hC h hI
  obtain ⟨hapart, hunmanaged, hkeys, hcoherent, hsee⟩ := hC
  obtain ⟨hs, hi, hv, hk, hn, hr⟩ := hI
  obtain ⟨hs', hi'⟩ := indexed_kept envs fuel s op out s' hb hapart h ⟨hs, hi⟩
  obtain ⟨-, hv'⟩ := rowsValid_kept envs fuel s op out s' hb hunmanaged h ⟨hs.wellFormed, hv⟩
  obtain ⟨-, hk'⟩ := keyed_kept envs fuel s op out s' hb hkeys h ⟨hs.wellFormed, hk⟩
  cases hop : op.isDefinition with
  | true =>
    have hdef := apply_definition hop h
    exact ⟨hs', hi', hv', hk', hdef.fksNamed hn, hdef.referential hs hs'.wellFormed hr⟩
  | false =>
    have hstatement := apply_statement hop hb h
    refine ⟨hs', hi', hv', hk', hn.same (hstatement.wrote hs).1, ?_⟩
    cases hstatement with
    | insert h => exact insert_referential hs hi hv hr h
    | @change _ table image deltas closure _ htargets h =>
      refine h.referential hs hi hv hk hn (htargets.keyUnmanaged hunmanaged h.found) ?_ hr
      rintro plan rfl
      exact ⟨hcoherent table image deltas plan h.found htargets h.planned,
        hsee plan (h.plans htargets)⟩
    | removal himage hseeds h =>
      exact h.referential hs hi hn (hsee _ (h.plans himage hseeds)) hr
    | idle => exact hr

/-- So does every job whose closures, if it is an update, rewrite no row. -/
theorem referring_steady : Keeps KeepsReferences CatState.Referring := by
  rintro envs fuel s op out s' hb ⟨hapart, hunmanaged, hkeys, hsteady, hsee⟩ h hI
  refine referring_kept envs fuel s op out s' hb ⟨hapart, hunmanaged, hkeys, ?_, hsee⟩ h hI
  intro table image deltas plan himage htargets hplanned
  exact (hsteady table image deltas plan himage htargets hplanned).coherent hI.sound
    (planReferential_eq_ok hplanned).1

/-- **Referential integrity.** In every state of a run whose updates are apart, move no key the
engine manages and have steady closures, whose dropped indexes are not the only key a foreign key
refers to, and whose closures are planned where no index misses a row that refers, every foreign
key all of whose columns are set refers to a row of its parent. -/
theorem references_hold {ops : List JobOp} (h : RunWhere KeepsReferences ops s) (t : String)
    (image : TableImage) (himage : OrdMap.find t s.tables = some image) (fk : ForeignKey)
    (hfk : fk ∈ image.def_.foreignKeys) (k : Bytes) (row : List Value)
    (hrow : image.rows k = some row) (vals : List Value)
    (hvals : fkValues image.def_ fk row = some vals) : s.HasKey fk vals := by
  have hrefers := RunWhere.induct referring_steady referring_empty h
  exact hrefers.referential t image himage fk hfk k row hrow vals hvals

end Runs

/-! ### A desk that stays -/

/-- Whether no unique index could miss a row that refers. -/
def looksSee (s : CatState) : Bool :=
  s.tables.all (fun e => e.2.def_.foreignKeys.all (fun fk =>
    (e.2.def_.indexes.find? (fun i => fk.columns.isPrefixOf i.columns)).all (fun i => !i.unique)))

theorem looksSee_sound {s : CatState} (h : looksSee s = true) : s.NoneMissed := by
  intro t a ha fk hfk idx hidx k row _ _ hmissed
  have hall := List.all_eq_true.1 (List.all_eq_true.1 h (t, a) (OrdMap.mem_of_find ha)) fk hfk
  rw [hidx, Option.all_some, hmissed.1] at hall
  cases hall

/-- A job that changes and deletes no row plans no closure. -/
theorem looksSee_of_still {env : Env} {fuel : Nat} {s : CatState} {op : JobOp}
    (htargets : ∀ table image deltas, ¬ op.Targets env s table image deltas)
    (hseeds : ∀ table image seeds, ¬ op.Seeds table image seeds) : LooksSee env fuel s op := by
  rintro plan ⟨table, image, -, ⟨deltas, h, -⟩ | ⟨seeds, h, -⟩⟩
  · exact (htargets table image deltas h).elim
  · exact (hseeds table image seeds h).elim

/-- A worker keeps one desk and owns another, which their boss keeps. -/
def twoDesks : List JobOp :=
  sharedDesk ++ [.insert "desks" [[("id", .i64 8), ("owner", .i64 2), ("keeper", .i64 1)]]]

/-- A job that neither updates nor deletes meets every condition. -/
theorem meets_twoDesks : ∀ op ∈ twoDesks, ∀ env s,
    Meets KeepsReferences (fun _ => env) 9 s op := by
  intro op hop env s
  simp only [twoDesks, sharedDesk, List.cons_append, List.nil_append, List.mem_cons,
    List.not_mem_nil, or_false] at hop
  rcases hop with rfl | rfl | rfl | rfl | rfl <;>
    exact ⟨fun _ _ _ _ _ htargets _ => htargets.elim, trivial, fun _ _ hdrop => (by cases hdrop),
      fun _ _ _ _ _ htargets _ => htargets.elim, looksSee_of_still (fun _ _ _ => id)
        (fun _ _ _ => id)⟩

/-- The desk of a worker who leaves goes, and the one they own stays with its keeper. -/
theorem references_hold_desks : ∃ s image row vals fk,
    RunWhere KeepsReferences (twoDesks ++ [.delete "workers" [.i64 2]]) s ∧
      OrdMap.find "desks" s.tables = some image ∧ image.data.length = 1 ∧
      fkValues image.def_ fk row = some vals ∧ s.HasKey fk vals := by
  obtain ⟨s, s', out, hrun, happly, htest⟩ := RunWhere.evalThen tickingEnv 9 twoDesks
    (.delete "workers" [.i64 2]) (fun s s' =>
      looksSee s &&
        (OrdMap.find "desks" s'.tables).any (fun i : TableImage => decide (i.data.length = 1) &&
          i.data.any (fun e => (i.rows e.1).any (fun row => i.def_.foreignKeys.any (fun fk =>
            (fkValues i.def_ fk row).isSome)))))
    meets_twoDesks (by decide +kernel)
  rw [Bool.and_eq_true] at htest
  obtain ⟨image, himage, htest'⟩ := (Option.any_eq_true _ _).1 htest.2
  rw [Bool.and_eq_true] at htest'
  obtain ⟨e, -, hrow⟩ := List.any_eq_true.1 htest'.2
  obtain ⟨row, hrow, hfks⟩ := (Option.any_eq_true _ _).1 hrow
  obtain ⟨fk, hfk, hvals⟩ := List.any_eq_true.1 hfks
  obtain ⟨vals, hvals⟩ := Option.isSome_iff_exists.1 hvals
  have hrun' := hrun.snoc (show Meets KeepsReferences _ 9 s (.delete _ _) from
    ⟨fun _ _ _ _ _ htargets _ => htargets.elim, trivial, fun _ _ hdrop => (by cases hdrop),
      fun _ _ _ _ _ htargets _ => htargets.elim, fun _ _ => looksSee_sound htest.1⟩) happly
  exact ⟨s', image, row, vals, fk, hrun', himage, of_decide_eq_true htest'.1, hvals,
    references_hold hrun' "desks" image himage fk hfk e.1 row hrow vals hvals⟩

/-! ### Coats that follow -/

/-- The steps that the effects of a closure make. -/
def Cascade.steps (s : CatState) (plan : Cascade) : List (ChildStep s s.allTables) :=
  plan.effects.flatMap (fun e =>
    match h : s.allTables.find? (fun t => t.name = e.table) with
    | none => []
    | some _ => effectSteps s h)

theorem Cascade.mem_steps {s : CatState} {plan : Cascade} (c : ChildStep s s.allTables)
    (hc : c.eff ∈ plan.effects) : c ∈ plan.steps s := by
  refine List.mem_flatMap.2 ⟨c.eff, hc, ?_⟩
  split
  · next hnone => cases c.found.symm.trans hnone
  · next hfound => exact (mem_effectSteps hfound).2 rfl

/-- The columns that a step assigns, with what it assigns to them. -/
def ChildStep.assigned {s : CatState} {tables : List TableDef} (c : ChildStep s tables) :
    List (Nat × Value) :=
  c.fk.columns.zipIdx.filterMap (fun x => (c.child.colIndex x.1).map (fun ci =>
    (ci, (rewrittenKey c.parent c.fk c.eff c.action)[x.2]?.getD .null)))

theorem ChildStep.mem_assigned {s : CatState} {tables : List TableDef} {c : ChildStep s tables}
    {ci : Nat} {v : Value} (h : c.Assigns ci v) : (ci, v) ∈ c.assigned := by
  obtain ⟨j, name, hj, hci, rfl⟩ := h
  refine List.mem_filterMap.2 ⟨(name, j), List.mem_zipIdx_iff_getElem?.2 hj, ?_⟩
  rw [hci]
  rfl

/-- Whether the actions of a closure agree, and none assigns a column of another foreign key. -/
def Cascade.agreesApart (s : CatState) (plan : Cascade) : Bool :=
  (plan.steps s).all (fun c =>
    (plan.steps s).all (fun c' => decide (rowRef c.child c.pkKey ≠ rowRef c'.child c'.pkKey) ||
      c.assigned.all (fun a => c'.assigned.all (fun a' => decide (a.1 ≠ a'.1) || a.2.eqv a'.2))) &&
    c.child.foreignKeys.all (fun fk => decide (fk = c.fk) || c.assigned.all (fun a =>
      fk.columns.all (fun name => decide (c.child.colIndex name ≠ some a.1)))))

theorem Cascade.agreesApart_sound {s : CatState} {plan : Cascade} (hs : s.WellFormed)
    (h : plan.agreesApart s = true) : plan.Agrees s ∧ plan.Spares s := by
  have h := List.all_eq_true.1 h
  constructor
  · rintro t k ci v v' ⟨c, hc, rfl, rfl, hv⟩ ⟨c', hc', ht, hk, hv'⟩
    have hagree := List.all_eq_true.1 (Bool.and_eq_true_iff.1 (h c (mem_steps c hc))).1 c'
      (mem_steps c' hc')
    have href : rowRef c.child c.pkKey = rowRef c'.child c'.pkKey := by
      rw [rowRef, rowRef, ht, hk]
    rw [decide_eq_false (not_not.2 href), Bool.false_or] at hagree
    have hcell := List.all_eq_true.1 (List.all_eq_true.1 hagree _ (c.mem_assigned hv)) _
      (c'.mem_assigned hv')
    rwa [decide_eq_false (not_not.2 rfl), Bool.false_or] at hcell
  · rintro t a k old ci v ha hold ⟨c, hc, rfl, rfl, hv⟩ fk hfk ⟨name, hname, hci⟩
    obtain ⟨a', ha', hdef⟩ := hs.mem_allTables c.mem
    cases ha.symm.trans ha'
    rw [hdef] at hfk hci
    refine .inr (.inr ⟨c, hc, rfl, rfl, ?_⟩)
    have hspared := List.all_eq_true.1 (Bool.and_eq_true_iff.1 (h c (mem_steps c hc))).2 fk hfk
    rw [Bool.or_eq_true, decide_eq_true_eq] at hspared
    refine (hspared.resolve_right (fun hall => ?_)).symm
    have hnot := List.all_eq_true.1 (List.all_eq_true.1 hall _ (c.mem_assigned hv)) name hname
    exact of_decide_eq_true hnot hci

/-- Whether the closure of an update of a table without foreign keys is coherent. -/
def updateCoherent (env : Env) (fuel : Nat) (s : CatState) (table : String)
    (policy : RowUpdater) : Bool :=
  (OrdMap.find table s.tables).any (fun image => image.def_.foreignKeys.isEmpty &&
    (matchRows env s table image.def_ policy 0 [] image.data).toOption.any (fun deltas =>
      (planReferential fuel s table image.def_ deltas).toOption.any (fun closure =>
        closure.all (fun plan => plan.agreesApart s && deltas.all (fun d =>
          (OrdMap.find (rowRef image.def_ d.pkKey) plan.rewrites).isNone)))))

theorem updateCoherent_sound {env : Env} {fuel : Nat} {s : CatState} {table : String}
    {policy : RowUpdater} (hs : s.WellFormed)
    (h : updateCoherent env fuel s table policy = true) :
    UpdatesCoherent env fuel s (.updateWhere table policy) := by
  rintro t image deltas plan himage ⟨rfl, hmatch⟩ hplanned
  rw [updateCoherent, himage, Option.any_some, Bool.and_eq_true, List.isEmpty_iff, hmatch] at h
  obtain ⟨hfks, h⟩ := h
  change (planReferential fuel s table image.def_ deltas).toOption.any _ = true at h
  rw [hplanned] at h
  change (plan.agreesApart s && _) = true at h
  rw [Bool.and_eq_true, List.all_eq_true] at h
  obtain ⟨hagrees, hspares⟩ := Cascade.agreesApart_sound hs h.1
  refine ⟨fun d hd => Option.isNone_iff_eq_none.1 (h.2 d hd), hagrees, hspares, ?_⟩
  intro d _ fk hfk
  rw [hfks] at hfk
  cases hfk

end Edb.Catalog
