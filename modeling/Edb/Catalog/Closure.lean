import Edb.Catalog.Run

/-!
# The closure planner

What the planner of a referential closure reads and what one round does, read off its
computation, and the rule for its worklist: every child row of every recorded effect was met,
and what every step keeps, and what a step established, holds of the finished plan.
-/

namespace Edb.Catalog

open Edb.Types Edb.Lib

/-! ## The rows a closure reads -/

/-- The rows kept are stored ones that refer to the key. -/
theorem keepReferring_eq_ok {child : TableDef} {fk : ForeignKey} {keyVals : List Value}
    {entries : List (Bytes × Bytes)} {rows : List (Bytes × List Value)}
    (h : keepReferring child fk keyVals entries = .ok rows) :
    ∀ c ∈ rows, ∃ bytes, (c.1, bytes) ∈ entries ∧ decodePadded child bytes = .ok c.2 ∧
      optEqv (fkValues child fk c.2) (some keyVals) = true := by
  induction entries generalizing rows with
  | nil =>
    cases h
    intro c hc
    cases hc
  | cons e entries ih =>
    obtain ⟨pkKey, bytes⟩ := e
    obtain ⟨row, hrow, h⟩ := Result.bind_eq_ok.1 h
    obtain ⟨kept, hkept, h⟩ := Result.bind_eq_ok.1 h
    cases h
    intro c hc
    have hrest : c ∈ kept → ∃ bytes', (c.1, bytes') ∈ (pkKey, bytes) :: entries ∧
        decodePadded child bytes' = .ok c.2 ∧
        optEqv (fkValues child fk c.2) (some keyVals) = true := by
      intro hc
      obtain ⟨bytes', hmem, hdec⟩ := ih hkept c hc
      exact ⟨bytes', List.mem_cons_of_mem _ hmem, hdec⟩
    split at hc
    · next hrefers =>
      rcases List.mem_cons.1 hc with rfl | hc
      · exact ⟨bytes, by simp, rej_eq_ok.1 hrow, hrefers⟩
      · exact hrest hc
    · exact hrest hc

/-- Scanned children are stored rows of the child that refer to the key. -/
theorem scanChildren_eq_ok {s : CatState} {child : TableDef} {fk : ForeignKey}
    {keyVals : List Value} {rows : List (Bytes × List Value)}
    (h : scanChildren s child fk keyVals = .ok rows) :
    ∃ image, OrdMap.find child.name s.tables = some image ∧ ∀ c ∈ rows, ∃ bytes,
      (c.1, bytes) ∈ image.data ∧ decodePadded child bytes = .ok c.2 ∧
        optEqv (fkValues child fk c.2) (some keyVals) = true := by
  obtain ⟨image, himage, h⟩ := Result.bind_eq_ok.1 h
  refine ⟨image, CatState.load_eq_ok.1 himage, ?_⟩
  split at h
  · next idx _ =>
    obtain ⟨tree, -, h⟩ := Result.bind_eq_ok.1 h
    obtain ⟨⟨lo, hi⟩, -, h⟩ := Result.bind_eq_ok.1 h
    intro c hc
    obtain ⟨bytes, hmem, hdec⟩ := keepReferring_eq_ok h c hc
    refine ⟨bytes, ?_, hdec⟩
    obtain ⟨e, -, he⟩ := List.mem_filterMap.1 hmem
    obtain ⟨bytes', hfind, heq⟩ := Option.map_eq_some_iff.1 he
    rw [← heq]
    exact OrdMap.mem_of_find hfind
  · exact keepReferring_eq_ok h

/-! ## One child row -/

/-- The action an effect takes on a foreign key, and the old key it looks for. -/
theorem fkAction_eq_some {parent : TableDef} {fk : ForeignKey} {eff : CascadeEffect}
    {action : RefAction} {oldKey : List Value}
    (h : fkAction parent fk eff = some (action, oldKey)) :
    fk.parent = eff.table ∧ (eff.newRow = none → action = fk.onDelete) ∧
      (∀ newRow, eff.newRow = some newRow → action = fk.onUpdate) := by
  unfold fkAction at h
  split at h
  · cases h
  · next hparent =>
    refine ⟨not_not.1 hparent, ?_⟩
    split at h
    · cases h
    · split at h
      · next hnew =>
        cases h
        refine ⟨fun _ => rfl, fun newRow hn => ?_⟩
        rw [hnew] at hn
        cases hn
      · next newRow hnew =>
        split at h
        · cases h
        · cases h
          refine ⟨fun hn => ?_, fun _ _ => rfl⟩
          rw [hnew] at hn
          cases hn

/-- The key that disappears is the parent's. -/
theorem fkAction_key {parent : TableDef} {fk : ForeignKey} {eff : CascadeEffect}
    {action : RefAction} {oldKey : List Value}
    (h : fkAction parent fk eff = some (action, oldKey)) :
    parentKeyOf parent fk eff.oldRow = some oldKey := by
  unfold fkAction at h
  split at h
  · cases h
  · split at h
    · cases h
    · next key hkey =>
      split at h
      · cases h
        exact hkey
      · split at h
        · cases h
        · cases h
          exact hkey

/-- Where a child row is addressed. -/
def rowRef (child : TableDef) (pkKey : Bytes) : RowRef := toLex (child.name, pkKey)

/-- The form a child row gets when it is rewritten: over an earlier rewrite of it, or over the
committed row. -/
def rewritten (parent child : TableDef) (fk : ForeignKey) (eff : CascadeEffect)
    (action : RefAction) (plan : Cascade) (pkKey : Bytes) (row : List Value) : List Value :=
  setFkColumns child
    (((OrdMap.find (rowRef child pkKey) plan.rewrites).map Prod.snd).getD row) fk.columns
    (rewrittenKey parent fk eff action)

/-- A row that is rewritten goes to the queue unless the rewrite is an earlier one again. -/
theorem planChild_rewrites {parent child : TableDef} {fk : ForeignKey} {eff : CascadeEffect}
    {action : RefAction} {plan : Cascade} {pkKey : Bytes} (row : List Value)
    (hdel : OrdMap.find (rowRef child pkKey) plan.deletes = none)
    (hcase : ¬ (action = .cascade ∧ eff.newRow = none)) :
    planChild parent child fk eff action plan pkKey row =
      ({ plan with
          rewrites := OrdMap.insert (rowRef child pkKey)
            (row, rewritten parent child fk eff action plan pkKey row) plan.rewrites },
        if ((OrdMap.find (rowRef child pkKey) plan.rewrites).map Prod.snd).any
            (fun n => rowsEqv n (rewritten parent child fk eff action plan pkKey row)) then []
        else [⟨child.name, row, some (rewritten parent child fk eff action plan pkKey row)⟩]) := by
  have hcase' : (action = .cascade && eff.newRow.isNone) = false := by
    rw [Bool.eq_false_iff]
    intro h
    rw [Bool.and_eq_true_iff, decide_eq_true_eq, Option.isNone_iff_eq_none] at h
    exact hcase h
  unfold planChild
  rw [rowRef] at hdel
  simp only [hdel, Option.isSome_none, Bool.false_eq_true, if_false, hcase']
  rfl

/-- A child row is doomed already, doomed now, or rewritten. -/
theorem planChild_cases (parent child : TableDef) (fk : ForeignKey) (eff : CascadeEffect)
    (action : RefAction) (plan : Cascade) (pkKey : Bytes) (row : List Value) :
    ((OrdMap.find (rowRef child pkKey) plan.deletes).isSome ∧
      planChild parent child fk eff action plan pkKey row = (plan, [])) ∨
    (OrdMap.find (rowRef child pkKey) plan.deletes = none ∧
      action = .cascade ∧ eff.newRow = none ∧
      planChild parent child fk eff action plan pkKey row =
        ({ plan with
            rewrites := OrdMap.erase (rowRef child pkKey) plan.rewrites
            deletes := OrdMap.insert (rowRef child pkKey) row plan.deletes },
          [⟨child.name, row, none⟩])) ∨
    (OrdMap.find (rowRef child pkKey) plan.deletes = none ∧
      ¬ (action = .cascade ∧ eff.newRow = none) ∧
      ∃ new, planChild parent child fk eff action plan pkKey row =
        ({ plan with
            rewrites := OrdMap.insert (rowRef child pkKey)
              (row, rewritten parent child fk eff action plan pkKey row) plan.rewrites }, new) ∧
        ∀ e ∈ new, e = ⟨child.name, row,
          some (rewritten parent child fk eff action plan pkKey row)⟩) := by
  cases hdel : OrdMap.find (rowRef child pkKey) plan.deletes with
  | some r =>
    refine .inl ⟨rfl, ?_⟩
    -- deleted already: skipped
    unfold planChild
    rw [rowRef] at hdel
    simp [hdel]
  | none =>
    by_cases hcase : action = .cascade ∧ eff.newRow = none
    · refine .inr (.inl ⟨rfl, hcase.1, hcase.2, ?_⟩)
      unfold planChild
      rw [rowRef] at hdel ⊢
      simp [hdel, hcase.1, hcase.2]
    · refine .inr (.inr ⟨rfl, hcase, _, planChild_rewrites row hdel hcase, ?_⟩)
      intro e he
      split at he
      · cases he
      · exact List.mem_singleton.1 he

/-! ## The worklist -/

/-- A child row the planner meets: its table, foreign key and effect, and what is done. -/
structure ChildStep (s : CatState) (tables : List TableDef) where
  eff : CascadeEffect
  parent : TableDef
  child : TableDef
  fk : ForeignKey
  action : RefAction
  oldKey : List Value
  pkKey : Bytes
  row : List Value
  found : tables.find? (fun t => t.name = eff.table) = some parent
  mem : child ∈ tables
  fkMem : fk ∈ child.foreignKeys
  acts : fkAction parent fk eff = some (action, oldKey)
  free : action ≠ .restrict
  scanned : ∃ children, scanChildren s child fk oldKey = .ok children ∧ (pkKey, row) ∈ children

/-- What a child row does to a plan. -/
def ChildStep.plan {s : CatState} {tables : List TableDef} (c : ChildStep s tables)
    (plan : Cascade) : Cascade × List CascadeEffect :=
  planChild c.parent c.child c.fk c.eff c.action plan c.pkKey c.row

/-- The row a step meets is deleted. -/
def ChildStep.Dooms {s : CatState} {tables : List TableDef} (c : ChildStep s tables) : Prop :=
  c.action = .cascade ∧ c.eff.newRow = none

section Worklist

variable {s : CatState} {tables : List TableDef}

/-- A step on a plan and its queue. -/
def ChildStep.on (acc : Cascade × List CascadeEffect) (c : ChildStep s tables) :
    Cascade × List CascadeEffect :=
  ((c.plan acc.1).1, acc.2 ++ (c.plan acc.1).2)

section Steps

variable {eff : CascadeEffect} {parent child : TableDef} {fk : ForeignKey}

/-- The child rows an effect meets by one foreign key, in order. -/
def fkSteps (s : CatState) (hfound : tables.find? (fun t => t.name = eff.table) = some parent)
    (hchild : child ∈ tables) (hfk : fk ∈ child.foreignKeys) : List (ChildStep s tables) :=
  match hacts : fkAction parent fk eff with
  | none => []
  | some (action, oldKey) =>
    if hfree : action = .restrict then []
    else
      match hscan : scanChildren s child fk oldKey with
      | .error _ => []
      | .ok children =>
        children.attach.map (fun x => ⟨eff, parent, child, fk, action, oldKey, x.1.1, x.1.2,
          hfound, hchild, hfk, hacts, hfree, children, hscan, x.2⟩)

/-- The child rows an effect meets, in the order the planner meets them. -/
def effectSteps (s : CatState)
    (hfound : tables.find? (fun t => t.name = eff.table) = some parent) :
    List (ChildStep s tables) :=
  tables.attach.flatMap (fun child =>
    child.1.foreignKeys.attach.flatMap (fun fk => fkSteps s hfound child.2 fk.2))

variable (hfound : tables.find? (fun t => t.name = eff.table) = some parent)

/-- The steps of a foreign key are those of its child rows. -/
theorem mem_fkSteps (hchild : child ∈ tables) (hfk : fk ∈ child.foreignKeys)
    {c : ChildStep s tables} :
    c ∈ fkSteps s hfound hchild hfk ↔ c.eff = eff ∧ c.child = child ∧ c.fk = fk := by
  constructor
  · intro hc
    unfold fkSteps at hc
    split at hc
    · cases hc
    · split at hc
      · cases hc
      · split at hc
        · cases hc
        · obtain ⟨x, -, rfl⟩ := List.mem_map.1 hc
          exact ⟨rfl, rfl, rfl⟩
  · rintro ⟨rfl, rfl, rfl⟩
    cases c.found.symm.trans hfound
    obtain ⟨children, hscan, hmem⟩ := c.scanned
    unfold fkSteps
    split
    · next hnone => cases c.acts.symm.trans hnone
    · next action oldKey hacts =>
      cases c.acts.symm.trans hacts
      rw [dif_neg c.free]
      split
      · next e herr => cases hscan.symm.trans herr
      · next children' hscan' =>
        cases hscan.symm.trans hscan'
        exact List.mem_map.2 ⟨⟨(c.pkKey, c.row), hmem⟩, List.mem_attach _ _, rfl⟩

/-- An effect meets every child row that some foreign key acts on, and no other. -/
theorem mem_effectSteps {c : ChildStep s tables} : c ∈ effectSteps s hfound ↔ c.eff = eff := by
  constructor
  · intro hc
    obtain ⟨child, -, hc⟩ := List.mem_flatMap.1 hc
    obtain ⟨fk, -, hc⟩ := List.mem_flatMap.1 hc
    exact ((mem_fkSteps hfound child.2 fk.2).1 hc).1
  · intro heff
    refine List.mem_flatMap.2 ⟨⟨c.child, c.mem⟩, List.mem_attach _ _, ?_⟩
    refine List.mem_flatMap.2 ⟨⟨c.fk, c.fkMem⟩, List.mem_attach _ _, ?_⟩
    exact (mem_fkSteps hfound c.mem c.fkMem).2 ⟨heff, rfl, rfl⟩

/-- Planning the children of a foreign key is taking its steps. -/
theorem planChildren_eq_foldl {action : RefAction} {oldKey : List Value} (hchild : child ∈ tables)
    (hfk : fk ∈ child.foreignKeys) (hacts : fkAction parent fk eff = some (action, oldKey))
    (hfree : action ≠ .restrict) {children : List (Bytes × List Value)}
    (hscan : scanChildren s child fk oldKey = .ok children) {rest : List (Bytes × List Value)}
    (hrest : ∀ x ∈ rest, x ∈ children) (acc : Cascade × List CascadeEffect) :
    planChildren parent child fk eff action acc rest =
      ((rest.attachWith (· ∈ children) hrest).map (fun x => (⟨eff, parent, child, fk, action,
        oldKey, x.1.1, x.1.2, hfound, hchild, hfk, hacts, hfree, children, hscan, x.2⟩ :
          ChildStep s tables))).foldl ChildStep.on acc := by
  induction rest generalizing acc with
  | nil => rfl
  | cons x rest ih =>
    exact ih (fun y hy => hrest y (List.mem_cons_of_mem _ hy)) _

/-- Planning a foreign key is taking the steps of its child rows in order. -/
theorem planFk_eq_foldl (hchild : child ∈ tables) (hfk : fk ∈ child.foreignKeys)
    {acc acc' : Cascade × List CascadeEffect} (h : planFk s parent child eff acc fk = .ok acc') :
    acc' = (fkSteps s hfound hchild hfk).foldl ChildStep.on acc := by
  rw [Catalog.planFk] at h
  unfold fkSteps
  split at h
  · next hnone =>
    cases h
    split
    · rfl
    · next hacts => cases hnone.symm.trans hacts
  · next oldKey hrestrict =>
    cases h
    split
    · rfl
    · next hacts =>
      cases hrestrict.symm.trans hacts
      rfl
  · next action oldKey hrestrict hact =>
    obtain ⟨children, hscan, h⟩ := Result.bind_eq_ok.1 h
    cases h
    split
    · next hnone => cases hnone.symm.trans hact
    · next action' oldKey' hacts =>
      cases hact.symm.trans hacts
      have hfree : action ≠ .restrict := fun he => hrestrict (by rw [he])
      rw [dif_neg hfree]
      split
      · next e herr => cases hscan.symm.trans herr
      · next children' hscan' =>
        cases hscan.symm.trans hscan'
        exact planChildren_eq_foldl hfound hchild hfk hacts hfree hscan' (fun _ hx => hx) acc

/-- Working off an effect is taking its steps one after another. -/
theorem planEffect_eq_foldl {acc acc' : Cascade × List CascadeEffect}
    (h : planEffect s tables parent eff acc = .ok acc') :
    acc' = (effectSteps s hfound).foldl ChildStep.on acc :=
  Result.foldlM_flatMap (fun child _ _ hchild =>
    Result.foldlM_flatMap (fun fk _ _ hfk => planFk_eq_foldl hfound child.2 fk.2 hfk)
      (fun _ hfk => hfk) hchild) (fun _ hchild => hchild) h

end Steps

/-- What is shown of every step while an effect is worked on: `J` is the invariant, `Did` what
meeting a child row establishes. -/
structure StepRule (J : CascadeEffect → Cascade → List CascadeEffect → Prop)
    (Did : ChildStep s tables → Cascade → Prop) : Prop where
  keeps : ∀ (c : ChildStep s tables) plan queue, J c.eff plan queue →
    J c.eff (c.plan plan).1 (queue ++ (c.plan plan).2)
  does : ∀ (c : ChildStep s tables) plan queue, J c.eff plan queue → Did c (c.plan plan).1
  stays : ∀ (c c' : ChildStep s tables) plan queue, c.eff = c'.eff → J c'.eff plan queue →
    Did c plan → Did c (c'.plan plan).1

variable {J : CascadeEffect → Cascade → List CascadeEffect → Prop}
  {Did : ChildStep s tables → Cascade → Prop} {eff : CascadeEffect} {parent : TableDef}

/-- The steps of an effect, one after another. -/
theorem StepRule.steps (hr : StepRule J Did) {steps : List (ChildStep s tables)}
    (heff : ∀ c ∈ steps, c.eff = eff) {acc : Cascade × List CascadeEffect}
    (hJ : J eff acc.1 acc.2) :
    J eff (steps.foldl ChildStep.on acc).1 (steps.foldl ChildStep.on acc).2 ∧
      (∀ c, c.eff = eff → Did c acc.1 → Did c (steps.foldl ChildStep.on acc).1) ∧
      ∀ c ∈ steps, Did c (steps.foldl ChildStep.on acc).1 := by
  induction steps generalizing acc with
  | nil => exact ⟨hJ, fun _ _ h => h, fun c hc => by cases hc⟩
  | cons step steps ih =>
    have hstep : step.eff = eff := heff step List.mem_cons_self
    subst hstep
    have hkeeps : J step.eff (ChildStep.on acc step).1 (ChildStep.on acc step).2 :=
      hr.keeps step _ _ hJ
    obtain ⟨hafter, hkept, hdone⟩ := ih (fun c hc => heff c (List.mem_cons_of_mem _ hc)) hkeeps
    refine ⟨hafter, fun c hc hdid => hkept c hc (hr.stays c step _ _ hc hJ hdid), ?_⟩
    intro c hc
    rcases List.mem_cons.1 hc with rfl | hc
    · exact hkept c rfl (hr.does c _ _ hJ)
    · exact hdone c hc

/-- An effect over every foreign key of every table. -/
theorem StepRule.planEffect (hr : StepRule J Did)
    (hparent : tables.find? (fun t => t.name = eff.table) = some parent)
    {acc acc' : Cascade × List CascadeEffect} (hJ : J eff acc.1 acc.2)
    (h : planEffect s tables parent eff acc = .ok acc') :
    J eff acc'.1 acc'.2 ∧ (∀ c, c.eff = eff → Did c acc.1 → Did c acc'.1) ∧
      ∀ c : ChildStep s tables, c.eff = eff → Did c acc'.1 := by
  rw [planEffect_eq_foldl hparent h]
  obtain ⟨hafter, hkept, hdone⟩ := hr.steps (fun c hc => (mem_effectSteps hparent).1 hc) hJ
  exact ⟨hafter, hkept, fun c hc => hdone c ((mem_effectSteps hparent).2 hc)⟩

/-- The rule for the worklist. `I` is the invariant between effects, `J` the one while an effect
is worked on; once every child row of the effect was met, it is recorded. -/
theorem StepRule.planLoop {I : Cascade → List CascadeEffect → Prop} (hr : StepRule J Did)
    (hskip : ∀ plan eff queue, tables.find? (fun t => t.name = eff.table) = none →
      I plan (eff :: queue) → I plan queue)
    (hpop : ∀ plan eff queue, I plan (eff :: queue) → J eff plan queue)
    (hdone : ∀ plan eff queue, J eff plan queue →
      (∀ c : ChildStep s tables, c.eff = eff → Did c plan) →
        I { plan with effects := plan.effects ++ [eff] } queue)
    {fuel : Nat} {plan plan' : Cascade} {queue : List CascadeEffect}
    (h : planLoop s tables fuel plan queue = .ok plan') (hI : I plan queue) : I plan' [] := by
  induction fuel generalizing plan queue with
  | zero =>
    cases queue with
    | nil =>
      cases h
      exact hI
    | cons eff queue => cases h
  | succ fuel ih =>
    cases queue with
    | nil =>
      cases h
      exact hI
    | cons eff queue =>
      rw [Catalog.planLoop] at h
      cases hparent : tables.find? (fun t => t.name = eff.table) with
      | none =>
        rw [hparent] at h
        exact ih h (hskip plan eff queue hparent hI)
      | some parent =>
        rw [hparent] at h
        obtain ⟨acc, heffect, h⟩ := Result.bind_eq_ok.1 h
        obtain ⟨hafter, -, hall⟩ := hr.planEffect hparent (hpop plan eff queue hI) heffect
        exact ih h (hdone _ eff _ hafter hall)

/-- The rule for the worklist when only invariants matter. `I` is the invariant of a plan and its
queue, `E` what it says of an effect once it is taken from the queue. -/
theorem planLoop_invariant {I : Cascade → List CascadeEffect → Prop} {E : CascadeEffect → Prop}
    (hpop : ∀ plan eff queue, I plan (eff :: queue) → E eff ∧ I plan queue)
    (hchild : ∀ (c : ChildStep s tables) plan queue, E c.eff → I plan queue →
      I (c.plan plan).1 (queue ++ (c.plan plan).2))
    (hdone : ∀ plan eff queue, E eff → I plan queue →
      I { plan with effects := plan.effects ++ [eff] } queue)
    {fuel : Nat} {plan plan' : Cascade} {queue : List CascadeEffect}
    (h : planLoop s tables fuel plan queue = .ok plan') (hI : I plan queue) : I plan' [] := by
  have hr : StepRule (fun eff plan queue => E eff ∧ I plan queue)
      (fun (_ : ChildStep s tables) _ => True) := by
    refine ⟨?_, fun _ _ _ _ => trivial, fun _ _ _ _ _ _ _ => trivial⟩
    intro c plan queue hc
    exact ⟨hc.1, hchild c plan queue hc.1 hc.2⟩
  exact hr.planLoop (fun plan eff queue _ h => (hpop plan eff queue h).2) hpop
    (fun plan eff queue hJ _ => hdone plan eff queue hJ.1 hJ.2) h hI

/-- The seeds of a delete rewrite nothing and leave nothing behind. -/
theorem seedDeletes_eq (seeds : List (String × Bytes × List Value)) (plan : Cascade)
    (queue : List CascadeEffect) :
    (seedDeletes (plan, queue) seeds).1.rewrites = plan.rewrites ∧
      ∀ eff ∈ (seedDeletes (plan, queue) seeds).2, eff ∈ queue ∨ eff.newRow = none := by
  induction seeds generalizing plan queue with
  | nil => exact ⟨rfl, fun _ h => .inl h⟩
  | cons seed seeds ih =>
    obtain ⟨table, pkKey, row⟩ := seed
    rw [seedDeletes]
    obtain ⟨hrew, hqueue⟩ := ih
      { plan with deletes := OrdMap.insert (toLex (table, pkKey)) row plan.deletes }
      (if (OrdMap.find (toLex (table, pkKey)) plan.deletes).isSome then queue
        else queue ++ [⟨table, row, none⟩])
    refine ⟨hrew, ?_⟩
    intro eff heff
    rcases hqueue eff heff with h | h
    · split at h
      · exact .inl h
      · rcases List.mem_append.1 h with h | h
        · exact .inl h
        · rw [List.mem_singleton.1 h]
          exact .inr rfl
    · exact .inr h

end Worklist

/-! ## What a plan passed -/

/-- The closure of changed rows, when it is planned at all. -/
theorem planReferential_eq_ok {fuel : Nat} {s : CatState} {table : String} {def_ : TableDef}
    {deltas : List RowDelta} {plan : Cascade}
    (h : planReferential fuel s table def_ deltas = .ok (some plan)) :
    planCascade s s.allTables fuel [] (deltas.map (fun d => (table, d.oldRow, d.newRow))) =
        .ok plan ∧
      checkCascadeRestrict s s.allTables plan = .ok () ∧
      validateCascadeRewrites s s.allTables plan = .ok () := by
  rw [planReferential, planChanges] at h
  split at h
  · obtain ⟨plan', hplan, h⟩ := Result.bind_eq_ok.1 h
    obtain ⟨⟨⟩, hrestrict, h⟩ := Result.bind_eq_ok.1 h
    obtain ⟨⟨⟩, hvalid, h⟩ := Result.bind_eq_ok.1 h
    cases h
    exact ⟨hplan, hrestrict, hvalid⟩
  · cases h

theorem checkRewrite_of_validate {s : CatState} {tables : List TableDef} {plan : Cascade}
    (h : validateCascadeRewrites s tables plan = .ok ()) :
    ∀ r ∈ plan.rewrites, checkRewrite tables r = .ok () := by
  obtain ⟨⟨⟩, hrewrites, -⟩ := Result.bind_eq_ok.1 h
  exact Result.forM_eq_ok.1 hrewrites

end Edb.Catalog
