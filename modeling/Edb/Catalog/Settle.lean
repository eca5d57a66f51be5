import Edb.Catalog.Overlap
import Edb.Lib.Levels
import Edb.Types.Order

/-!
# Closures that end

The planner puts a row back in its queue whenever it rewrites the row to something new, so two
actions that disagree about a column can send a row around a cycle of references forever. The
closure of deleted rows always ends: all its actions assign NULL.

* **When the closure of changed rows ends** (`planCascade_settles`): exactly when, from some round
  on, the disagreements are confined to actions from outside the cycles (`ActionsSettle`). A closure
  of which this does not hold from the start queues a row again that it has already rewritten.
-/

namespace Edb.Catalog

open Edb.Types Edb.Lib

/-! ## Rounds -/

/-- What the planner holds between rounds: the closure so far and the queue. -/
abbrev LoopState := Cascade × List CascadeEffect

/-- One round: an effect is worked off and recorded, or dropped if its table is unknown. -/
inductive Round (s : CatState) : LoopState → LoopState → Prop
  | skip {plan : Cascade} {eff : CascadeEffect} {queue : List CascadeEffect}
      (hnone : s.allTables.find? (fun t => t.name = eff.table) = none) :
      Round s (plan, eff :: queue) (plan, queue)
  | work {plan : Cascade} {eff : CascadeEffect} {queue : List CascadeEffect} {parent : TableDef}
      {acc : LoopState} (hparent : s.allTables.find? (fun t => t.name = eff.table) = some parent)
      (h : planEffect s s.allTables parent eff (plan, queue) = .ok acc) :
      Round s (plan, eff :: queue) ({ acc.1 with effects := acc.1.effects ++ [eff] }, acc.2)

abbrev Rounds (s : CatState) : LoopState → LoopState → Prop := Relation.ReflTransGen (Round s)

/-- The loop empties its queue, or fails, after finitely many rounds. -/
def Ends (s : CatState) (x : LoopState) : Prop :=
  ∃ n, ∀ fuel, n ≤ fuel → planLoop s s.allTables fuel x.1 x.2 ≠ .error .outOfFuel

/-- A computation that fails, if at all, for another reason than the loop's bound. -/
abbrev Unbounded {α : Type} (x : JobResult α) : Prop :=
  Result.Holds (fun err => err ≠ .outOfFuel) (fun _ => True) x

theorem unbounded_rej {α : Type} (x : CatResult α) : Unbounded (rej x) := by
  cases x with
  | ok a => trivial
  | error err =>
    intro h
    cases h

section Rounds

variable {s : CatState} {tables : List TableDef}

theorem keepReferring_unbounded (child : TableDef) (fk : ForeignKey) (keyVals : List Value)
    (entries : List (Bytes × Bytes)) : Unbounded (keepReferring child fk keyVals entries) := by
  induction entries with
  | nil => trivial
  | cons e entries ih =>
    rw [keepReferring]
    apply (unbounded_rej _).bind
    intro row _
    apply ih.bind
    intro kept _
    trivial

theorem scanChildren_unbounded (child : TableDef) (fk : ForeignKey) (keyVals : List Value) :
    Unbounded (scanChildren s child fk keyVals) := by
  apply (unbounded_rej _).bind
  intro image _
  split
  · apply (unbounded_rej _).bind
    intro tree _
    apply (unbounded_rej _).bind
    intro bounds _
    exact keepReferring_unbounded _ _ _ _
  · exact keepReferring_unbounded _ _ _ _

/-- Working on an effect ends. -/
theorem planEffect_unbounded (parent : TableDef) (eff : CascadeEffect)
    (acc : Cascade × List CascadeEffect) : Unbounded (planEffect s tables parent eff acc) := by
  apply Result.Holds.foldlM _ trivial
  intro acc child _ _
  apply Result.Holds.foldlM _ trivial
  intro acc fk _ _
  rw [planFk]
  split
  · trivial
  · trivial
  · apply (scanChildren_unbounded _ _ _).bind
    intro children _
    trivial

variable {x y z : LoopState}

/-- The loop does a round and goes on. -/
theorem planLoop_round (h : Round s x y) (fuel : Nat) :
    planLoop s s.allTables (fuel + 1) x.1 x.2 = planLoop s s.allTables fuel y.1 y.2 := by
  cases h with
  | skip hnone => rw [planLoop, hnone]
  | work hparent h =>
    rw [planLoop, hparent]
    dsimp only
    rw [h]
    rfl

/-- The loop is deterministic: a state has at most one next round. -/
theorem Round.unique (h : Round s x y) (h' : Round s x z) : y = z := by
  cases h with
  | skip hnone =>
    cases h' with
    | skip _ => rfl
    | work hparent _ => cases hnone.symm.trans hparent
  | work hparent h =>
    cases h' with
    | skip hnone => cases hnone.symm.trans hparent
    | work hparent' h' =>
      cases hparent.symm.trans hparent'
      cases h.symm.trans h'
      rfl

theorem Rounds.linear (h : Rounds s x y) (h' : Rounds s x z) : Rounds s y z ∨ Rounds s z y :=
  Relation.ReflTransGen.total_of_right_unique (r := Round s)
    (fun _ _ _ hr hr' => hr.unique hr') h h'

/-- A loop ends from a state exactly when it ends from the next. -/
theorem ends_round (h : Round s x y) : Ends s x ↔ Ends s y := by
  constructor
  · rintro ⟨n, hn⟩
    refine ⟨n, fun fuel hfuel => ?_⟩
    rw [← planLoop_round h]
    exact hn (fuel + 1) (by omega)
  · rintro ⟨n, hn⟩
    refine ⟨n + 1, fun fuel hfuel => ?_⟩
    obtain ⟨fuel, rfl⟩ := Nat.exists_eq_succ_of_ne_zero (show fuel ≠ 0 by omega)
    rw [planLoop_round h]
    exact hn fuel (by omega)

theorem ends_rounds (h : Rounds s x y) : Ends s x ↔ Ends s y := by
  induction h with
  | refl => exact Iff.rfl
  | tail _ hround ih => exact ih.trans (ends_round hround)

/-- A loop with no round left has ended: its queue is empty, or the next effect fails. -/
theorem ends_of_stuck (h : ∀ y, ¬ Round s x y) : Ends s x := by
  obtain ⟨plan, queue⟩ := x
  refine ⟨1, fun fuel hfuel => ?_⟩
  obtain ⟨fuel, rfl⟩ := Nat.exists_eq_succ_of_ne_zero (show fuel ≠ 0 by omega)
  cases queue with
  | nil => exact fun herr => by cases herr
  | cons eff queue =>
    rw [planLoop]
    cases hparent : s.allTables.find? (fun t => t.name = eff.table) with
    | none => exact absurd (.skip hparent) (h _)
    | some parent =>
      have hunbounded : Unbounded (planEffect s s.allTables parent eff (plan, queue)) :=
        planEffect_unbounded parent eff (plan, queue)
      dsimp only
      cases heffect : planEffect s s.allTables parent eff (plan, queue) with
      | ok acc => exact absurd (.work hparent heffect) (h _)
      | error err =>
        rw [heffect] at hunbounded
        intro herr
        cases herr
        exact hunbounded rfl

/-- A loop that ends comes to where no round is left. -/
theorem Ends.stuck (h : Ends s x) : ∃ y, Rounds s x y ∧ ∀ z, ¬ Round s y z := by
  obtain ⟨n, hn⟩ := h
  have hstop := hn n (le_refl n)
  clear hn
  induction n generalizing x with
  | zero =>
    refine ⟨x, .refl, fun z hz => hstop ?_⟩
    cases hz <;> rfl
  | succ n ih =>
    by_cases hround : ∃ y, Round s x y
    · obtain ⟨y, hy⟩ := hround
      rw [planLoop_round hy] at hstop
      obtain ⟨z, hz, hstuck⟩ := ih hstop
      exact ⟨z, .head hy hz, hstuck⟩
    · exact ⟨x, .refl, fun y hy => hround ⟨y, hy⟩⟩

/-- The rule for a round. `I` is the invariant of a plan and its queue, `E` what it says of an
effect once it is taken from the queue. -/
theorem Round.invariant {I : Cascade → List CascadeEffect → Prop} {E : CascadeEffect → Prop}
    (hpop : ∀ plan eff queue, I plan (eff :: queue) → E eff ∧ I plan queue)
    (hchild : ∀ (c : ChildStep s s.allTables) plan queue, E c.eff → I plan queue →
      I (c.plan plan).1 (queue ++ (c.plan plan).2))
    (hdone : ∀ plan eff queue, I plan queue →
      I { plan with effects := plan.effects ++ [eff] } queue)
    (h : Round s x y) (hI : I x.1 x.2) : I y.1 y.2 := by
  cases h with
  | skip hnone => exact (hpop _ _ _ hI).2
  | work hparent h =>
    have hr : StepRule (fun eff plan queue => E eff ∧ I plan queue)
        (fun (_ : ChildStep s s.allTables) _ => True) :=
      ⟨fun c plan queue hc => ⟨hc.1, hchild c plan queue hc.1 hc.2⟩, fun _ _ _ _ => trivial,
        fun _ _ _ _ _ _ _ => trivial⟩
    exact hdone _ _ _ (hr.planEffect hparent (hpop _ _ _ hI) h).1.2

theorem Rounds.invariant {I : Cascade → List CascadeEffect → Prop} {E : CascadeEffect → Prop}
    (h : Rounds s x y)
    (hpop : ∀ plan eff queue, I plan (eff :: queue) → E eff ∧ I plan queue)
    (hchild : ∀ (c : ChildStep s s.allTables) plan queue, E c.eff → I plan queue →
      I (c.plan plan).1 (queue ++ (c.plan plan).2))
    (hdone : ∀ plan eff queue, I plan queue →
      I { plan with effects := plan.effects ++ [eff] } queue)
    (hI : I x.1 x.2) : I y.1 y.2 := by
  induction h with
  | refl => exact hI
  | tail _ hround ih => exact hround.invariant hpop hchild hdone ih

/-- Every planned rewrite is of a stored row. -/
def Rewrites (s : CatState) (plan : Cascade) : Prop :=
  ∀ r ∈ plan.rewrites, ∃ image, RewriteOf s image r

theorem Rewrites.step (hs : s.Sound) (c : ChildStep s s.allTables) {plan : Cascade}
    (h : Rewrites s plan) : Rewrites s (c.plan plan).1 := by
  rcases planChild_cases c.parent c.child c.fk c.eff c.action plan c.pkKey c.row with
    ⟨-, hplan⟩ | ⟨-, -, -, hplan⟩ | ⟨-, -, new, hplan, -⟩ <;> rw [ChildStep.plan, hplan]
  · exact h
  · exact fun r hr => h r (List.mem_of_mem_filter hr)
  · intro r hr
    rcases OrdMap.mem_insert hr with rfl | hr
    · exact c.rewriteOf hs.wellFormed hs.inOrder h
    · exact h r hr

theorem Rounds.rewrites (hs : s.Sound) (h : Rounds s x y) (hx : Rewrites s x.1) :
    Rewrites s y.1 :=
  h.invariant (I := fun plan _ => Rewrites s plan) (E := fun _ => True)
    (fun _ _ _ hp => ⟨trivial, hp⟩) (fun c _ _ _ hp => hp.step hs c) (fun _ _ _ hp => hp) hx

end Rounds

/-! ## Actions that agree -/

section Settle

variable {s : CatState} {tables : List TableDef}

/-- An effect is worked off in some round from a state on. -/
def Follows (s : CatState) (x : LoopState) (eff : CascadeEffect) : Prop :=
  ∃ plan queue y, Rounds s x (plan, eff :: queue) ∧ Round s (plan, eff :: queue) y

/-- The rows can be put in levels so that the actions of the effects taken, if they are triggered
by rows of the met row's own level or of a higher one, never assign two different values to one of
its columns. -/
def ActionsSettle (s : CatState) (taken : CascadeEffect → Prop) : Prop :=
  ∃ (top : Nat) (level : String → List Value → Nat), (∀ t row, level t row ≤ top) ∧
    ∀ c c' : ChildStep s s.allTables, taken c.eff → taken c'.eff →
      rowRef c.child c.pkKey = rowRef c'.child c'.pkKey →
      level c.child.name c.row ≤ level c.eff.table c.eff.oldRow →
      level c'.child.name c'.row ≤ level c'.eff.table c'.eff.oldRow →
      ∀ ci v v', c.Assigns ci v → c'.Assigns ci v' → v.eqv v' = true

/-- Levels of rows, with the values that rows of a row's own level or of a higher one assign to
its columns. -/
structure Agreement (s : CatState) (x : LoopState) where
  top : Nat
  level : String → List Value → Nat
  value : RowRef → Nat → Value
  level_le : ∀ t row, level t row ≤ top
  agrees : ∀ c : ChildStep s s.allTables, Follows s x c.eff →
    level c.child.name c.row ≤ level c.eff.table c.eff.oldRow →
    ∀ ci v, c.Assigns ci v → v.eqv (value (rowRef c.child c.pkKey) ci) = true

/-- Fewer effects settle if more do. -/
theorem ActionsSettle.mono {taken taken' : CascadeEffect → Prop} (h : ActionsSettle s taken)
    (hle : ∀ eff, taken' eff → taken eff) : ActionsSettle s taken' := by
  obtain ⟨top, level, htop, hagree⟩ := h
  exact ⟨top, level, htop, fun c c' hc hc' => hagree c c' (hle _ hc) (hle _ hc')⟩

/-- Actions that settle agree on one value for each cell. -/
theorem ActionsSettle.agreement {x : LoopState} (h : ActionsSettle s (Follows s x)) :
    Nonempty (Agreement s x) := by
  classical
  obtain ⟨top, level, hle, hagree⟩ := h
  -- any one of the values assigned stands for all of them
  let assigned (r : RowRef) (ci : Nat) (v : Value) : Prop := ∃ c : ChildStep s s.allTables,
    rowRef c.child c.pkKey = r ∧ Follows s x c.eff ∧
      level c.child.name c.row ≤ level c.eff.table c.eff.oldRow ∧ c.Assigns ci v
  let value (r : RowRef) (ci : Nat) : Value :=
    if hex : ∃ v, assigned r ci v then hex.choose else .null
  refine ⟨⟨top, level, value, hle, ?_⟩⟩
  intro c hf hlevel ci v hv
  have hex : ∃ v, assigned (rowRef c.child c.pkKey) ci v := ⟨v, c, rfl, hf, hlevel, hv⟩
  obtain ⟨c', href, hf', hlevel', hv'⟩ := hex.choose_spec
  have hvalue : value (rowRef c.child c.pkKey) ci = hex.choose := dif_pos hex
  rw [hvalue]
  exact hagree c c' hf hf' href.symm hlevel hlevel' ci v _ hv hv'

variable {x : LoopState} {plan : Cascade} {queue : List CascadeEffect}

/-! ## What is left to do -/

/-- The stored rows, by their addresses. -/
def CatState.storedRows (s : CatState) : List (RowRef × List Value) :=
  s.tables.flatMap (fun e => e.2.data.filterMap (fun r =>
    (decodePadded e.2.def_ r.2).toOption.map (fun row => (toLex (e.1, r.1), row))))

theorem CatState.mem_storedRows {x : RowRef × List Value} : x ∈ s.storedRows ↔
    ∃ e ∈ s.tables, ∃ r ∈ e.2.data, decodePadded e.2.def_ r.2 = .ok x.2 ∧
      x.1 = toLex (e.1, r.1) := by
  rw [CatState.storedRows, List.mem_flatMap]
  refine exists_congr (fun e => and_congr_right (fun _ => ?_))
  rw [List.mem_filterMap]
  refine exists_congr (fun r => and_congr_right (fun _ => ?_))
  cases decodePadded e.2.def_ r.2 with
  | error err => simp [Except.toOption]
  | ok row =>
    simp only [Except.toOption, Option.map_some, Option.some.injEq, Except.ok.injEq]
    rw [Prod.ext_iff]
    exact ⟨fun h => ⟨h.2, h.1.symm⟩, fun h => ⟨h.2.symm, h.1⟩⟩

/-- A row is stored once. -/
theorem CatState.Sound.storedRows_unique (hs : s.Sound) {r : RowRef} {row row' : List Value}
    (h : (r, row) ∈ s.storedRows) (h' : (r, row') ∈ s.storedRows) : row = row' := by
  obtain ⟨⟨t, image⟩, he, ⟨k, bytes⟩, hr, hdec, href⟩ := CatState.mem_storedRows.1 h
  obtain ⟨⟨t', image'⟩, he', ⟨k', bytes'⟩, hr', hdec', href'⟩ := CatState.mem_storedRows.1 h'
  have hpair : (t, k) = (t', k') := toLex.injective (href.symm.trans href')
  cases hpair
  have himage := (OrdMap.find_eq_some_iff hs.wellFormed.sorted).2 he
  have himage' := (OrdMap.find_eq_some_iff hs.wellFormed.sorted).2 he'
  cases himage.symm.trans himage'
  have hbytes := (OrdMap.find_eq_some_iff (hs.inOrder _ _ himage)).2 hr
  have hbytes' := (OrdMap.find_eq_some_iff (hs.inOrder _ _ himage)).2 hr'
  cases hbytes.symm.trans hbytes'
  exact Except.ok.inj (hdec.symm.trans hdec')

theorem ChildStep.mem_storedRows (hs : s.Sound) (c : ChildStep s s.allTables) :
    (rowRef c.child c.pkKey, c.row) ∈ s.storedRows := by
  obtain ⟨image, bytes, himage, -, hmem, hdec⟩ := c.stored hs.wellFormed
  exact CatState.mem_storedRows.2
    ⟨(c.child.name, image), OrdMap.mem_of_find himage, (c.pkKey, bytes), hmem, hdec, rfl⟩

/-- A column of a form of a row does not hold the agreed value. -/
def Agreement.unsettled (a : Agreement s x) (r : RowRef) (form : List Value) (ci : Nat) : Nat :=
  if form[ci]?.any (fun v => v.eqv (a.value r ci)) then 0 else 1

/-- How often a row can still be queued by rows of its own level or of a higher one. -/
def Agreement.slack (a : Agreement s x) (plan : Cascade) (x : RowRef × List Value) : Nat :=
  if (OrdMap.find x.1 plan.deletes).isSome then 0
  else
    match OrdMap.find x.1 plan.rewrites with
    | none => x.2.length + 2
    | some w => ((List.range x.2.length).map (a.unsettled x.1 w.2)).sum + 1

/-- What is left to do at a level: the rows queued and what they can still be queued. -/
def Agreement.weight (a : Agreement s x) (plan : Cascade) (queue : List CascadeEffect)
    (j : Nat) : Nat :=
  queue.countP (fun e => a.level e.table e.oldRow = j) +
    ((s.storedRows.filter (fun x => a.level (ofLex x.1).1 x.2 = j)).map (a.slack plan)).sum

theorem valuesEqv_false {as bs : List Value} (hlen : as.length = bs.length)
    (h : valuesEqv as bs = false) :
    ∃ (ci : Nat) (x y : Value), as[ci]? = some x ∧ bs[ci]? = some y ∧ x.eqv y = false := by
  induction as generalizing bs with
  | nil =>
    cases bs with
    | nil => cases h
    | cons b bs => cases hlen
  | cons a as ih =>
    cases bs with
    | nil => cases hlen
    | cons b bs =>
      rw [valuesEqv, Bool.and_eq_false_iff] at h
      rcases h with h | h
      · exact ⟨0, a, b, rfl, rfl, h⟩
      · obtain ⟨ci, x, y, hx, hy, hne⟩ := ih (Nat.succ.inj hlen) h
        exact ⟨ci + 1, x, y, hx, hy, hne⟩

section Weight

variable (a : Agreement s x)

theorem Agreement.unsettled_le (r : RowRef) (form : List Value) (ci : Nat) :
    a.unsettled r form ci ≤ 1 := by
  rw [Agreement.unsettled]
  split <;> omega

/-- A rewrite by a row of no lower level settles every column it assigns. -/
theorem Agreement.unsettled_step (hs : s.Sound) (c : ChildStep s s.allTables)
    (hf : Follows s x c.eff) (h : Rewrites s plan)
    (hlevel : a.level c.child.name c.row ≤ a.level c.eff.table c.eff.oldRow) (ci : Nat) :
    a.unsettled (rowRef c.child c.pkKey)
        (Catalog.rewritten c.parent c.child c.fk c.eff c.action plan c.pkKey c.row) ci = 0 ∨
      (Catalog.rewritten c.parent c.child c.fk c.eff c.action plan c.pkKey c.row)[ci]? =
        (((OrdMap.find (rowRef c.child c.pkKey) plan.rewrites).map Prod.snd).getD c.row)[ci]? := by
  rcases c.rewritten_cell hs h ci with ⟨v, hv, hcell⟩ | ⟨-, hcell⟩
  · left
    rw [Agreement.unsettled, if_pos]
    rw [hcell]
    exact a.agrees c hf hlevel ci v hv
  · exact .inr hcell

/-- The sum over the columns of a row falls when a rewrite changes something. -/
theorem Agreement.unsettled_sum_step (hs : s.Sound) (c : ChildStep s s.allTables)
    (hf : Follows s x c.eff) (h : Rewrites s plan)
    (hlevel : a.level c.child.name c.row ≤ a.level c.eff.table c.eff.oldRow) {base new : List Value}
    (hbase : OrdMap.find (rowRef c.child c.pkKey) plan.rewrites = some (c.row, base))
    (hlen : base.length = c.row.length)
    (hnew : Catalog.rewritten c.parent c.child c.fk c.eff c.action plan c.pkKey c.row = new) :
    ((List.range c.row.length).map (a.unsettled (rowRef c.child c.pkKey) new)).sum +
        (if rowsEqv base new then 0 else 1) ≤
      ((List.range c.row.length).map (a.unsettled (rowRef c.child c.pkKey) base)).sum := by
  have hcell : ∀ ci : Nat, a.unsettled (rowRef c.child c.pkKey) new ci = 0 ∨
      new[ci]? = base[ci]? := by
    intro ci
    have := a.unsettled_step hs c hf h hlevel ci
    rw [hnew, hbase] at this
    exact this
  have hle : ∀ ci ∈ List.range c.row.length, a.unsettled (rowRef c.child c.pkKey) new ci ≤
      a.unsettled (rowRef c.child c.pkKey) base ci := by
    intro ci _
    rcases hcell ci with hz | hsame
    · omega
    · rw [Agreement.unsettled, Agreement.unsettled, hsame]
  split
  · exact List.sum_le_sum hle
  · next hdiff =>
    have hnewlen : base.length = new.length := by
      rw [← hnew, Catalog.rewritten, hbase, setFkColumns_length]
      rfl
    obtain ⟨ci, x, y, hx, hy, hne⟩ := valuesEqv_false hnewlen (Bool.eq_false_iff.2 hdiff)
    have hlt : ci < c.row.length := by
      rw [← hlen]
      exact (List.getElem?_eq_some_iff.1 hx).1
    apply Levels.sum_map_add_le hle (List.mem_range.2 hlt)
    -- a column that changed was assigned, and did not hold the agreed value
    have hzero : a.unsettled (rowRef c.child c.pkKey) new ci = 0 := by
      rcases hcell ci with hz | hsame
      · exact hz
      · rw [hx, hy] at hsame
        cases hsame
        rw [Value.eqv_refl] at hne
        cases hne
    have hsettled : y.eqv (a.value (rowRef c.child c.pkKey) ci) = true := by
      rw [Agreement.unsettled, hy, Option.any_some] at hzero
      by_contra hno
      rw [if_neg hno] at hzero
      cases hzero
    have hone : a.unsettled (rowRef c.child c.pkKey) base ci = 1 := by
      rw [Agreement.unsettled, hx, Option.any_some, if_neg]
      intro hsome
      rw [Value.eqv_trans hsome (Value.eqv_symm hsettled)] at hne
      cases hne
    omega

/-- A row that a row of no lower level queues has less slack. -/
theorem Agreement.slack_step (hs : s.Sound) (c : ChildStep s s.allTables)
    (hf : Follows s x c.eff) (h : Rewrites s plan)
    (hlevel : a.level c.child.name c.row ≤ a.level c.eff.table c.eff.oldRow) :
    a.slack (c.plan plan).1 (rowRef c.child c.pkKey, c.row) + (c.plan plan).2.length ≤
      a.slack plan (rowRef c.child c.pkKey, c.row) := by
  rcases planChild_cases c.parent c.child c.fk c.eff c.action plan c.pkKey c.row with
    ⟨-, hplan⟩ | ⟨hdel, -, -, hplan⟩ | ⟨hdel, hcase, -⟩
  · rw [ChildStep.plan, hplan]
    exact le_refl _
  · rw [ChildStep.plan, hplan]
    simp only [Agreement.slack, hdel, OrdMap.find_insert, if_true, Option.isSome_some,
      Option.isSome_none, Bool.false_eq_true, if_false, List.length_singleton]
    split <;> omega
  · rw [ChildStep.plan, planChild_rewrites c.row hdel hcase]
    simp only [Agreement.slack, hdel, OrdMap.find_insert, if_true, Option.isSome_none,
      Bool.false_eq_true, if_false]
    -- the row starts from itself, or from the form the plan has for it
    obtain ⟨base, hbase, hlen, ⟨hnone, -⟩ | hfrom, -⟩ := c.base hs.wellFormed hs.inOrder h
    · have hsum := List.sum_le_sum (fun ci (_ : ci ∈ List.range c.row.length) =>
        a.unsettled_le (rowRef c.child c.pkKey)
          (Catalog.rewritten c.parent c.child c.fk c.eff c.action plan c.pkKey c.row) ci)
      rw [List.map_const', List.sum_replicate, List.length_range, smul_eq_mul] at hsum
      simp only [hnone, Option.map_none, Option.any_none, Bool.false_eq_true, if_false,
        List.length_singleton]
      omega
    -- of a form that changes, one cell more has the value the actions agree on
    · have hstep := a.unsettled_sum_step hs c hf h hlevel hfrom hlen rfl
      simp only [hfrom, Option.map_some, Option.any_some]
      split
      · next heqv =>
        rw [if_pos heqv] at hstep
        rw [List.length_nil]
        omega
      · next heqv =>
        rw [if_neg heqv] at hstep
        rw [List.length_singleton]
        omega

/-- A step leaves other rows what they had left. -/
theorem Agreement.slack_other (c : ChildStep s s.allTables) {x : RowRef × List Value}
    (hx : x.1 ≠ rowRef c.child c.pkKey) : a.slack (c.plan plan).1 x = a.slack plan x := by
  rcases planChild_cases c.parent c.child c.fk c.eff c.action plan c.pkKey c.row with
    ⟨-, hplan⟩ | ⟨-, -, -, hplan⟩ | ⟨-, -, new, hplan, -⟩ <;> rw [ChildStep.plan, hplan]
  · simp only [Agreement.slack, OrdMap.find_insert, OrdMap.find_erase, if_neg hx.symm]
  · simp only [Agreement.slack, OrdMap.find_insert, if_neg hx.symm]

/-- What a step queues is the row it meets, at most once. -/
theorem ChildStep.queues (c : ChildStep s tables) (plan : Cascade) :
    ∀ e ∈ (c.plan plan).2, e.table = c.child.name ∧ e.oldRow = c.row := by
  rcases planChild_cases c.parent c.child c.fk c.eff c.action plan c.pkKey c.row with
    ⟨-, hplan⟩ | ⟨-, -, -, hplan⟩ | ⟨-, -, new, hplan, hnew⟩ <;> rw [ChildStep.plan, hplan]
  · intro e he
    cases he
  · intro e he
    rw [List.mem_singleton.1 he]
    exact ⟨rfl, rfl⟩
  · intro e he
    rw [hnew e he]
    exact ⟨rfl, rfl⟩

/-- A step raises no level up to that of the row that triggered it. -/
theorem Agreement.weight_step (hs : s.Sound) (c : ChildStep s s.allTables)
    (hf : Follows s x c.eff) (h : Rewrites s plan) {j : Nat}
    (hj : j ≤ a.level c.eff.table c.eff.oldRow) :
    a.weight (c.plan plan).1 (queue ++ (c.plan plan).2) j ≤ a.weight plan queue j := by
  have hother : ∀ x ∈ s.storedRows, x ≠ (rowRef c.child c.pkKey, c.row) →
      a.slack (c.plan plan).1 x = a.slack plan x := by
    intro x hx hne
    apply a.slack_other c
    intro href
    obtain ⟨r, row⟩ := x
    cases href
    rw [hs.storedRows_unique hx (c.mem_storedRows hs)] at hne
    exact hne rfl
  rw [Agreement.weight, Agreement.weight, List.countP_append]
  by_cases hlevel : a.level c.child.name c.row = j
  · -- the row is of this level: what it queues is paid for by its slack
    have hstep := a.slack_step hs c hf h (by omega)
    have hcount : (c.plan plan).2.countP (fun e => a.level e.table e.oldRow = j) ≤
        (c.plan plan).2.length := List.countP_le_length
    have hsum := Levels.sum_map_add_le
      (l := s.storedRows.filter (fun x => a.level (ofLex x.1).1 x.2 = j))
      (f := a.slack (c.plan plan).1) (g := a.slack plan) (n := (c.plan plan).2.length)
      (a := (rowRef c.child c.pkKey, c.row))
      (by
        intro x hx
        by_cases hself : x = (rowRef c.child c.pkKey, c.row)
        · rw [hself]
          omega
        · rw [hother x (List.mem_filter.1 hx).1 hself])
      (List.mem_filter.2 ⟨c.mem_storedRows hs, decide_eq_true hlevel⟩) hstep
    omega
  -- the row is of another level: nothing of this level is queued, and no slack changes
  · have hcount : (c.plan plan).2.countP (fun e => a.level e.table e.oldRow = j) = 0 := by
      rw [List.countP_eq_zero]
      intro e he
      obtain ⟨htable, hrow⟩ := c.queues plan e he
      rw [htable, hrow, decide_eq_true_eq]
      exact hlevel
    have hsum : (s.storedRows.filter (fun x => a.level (ofLex x.1).1 x.2 = j)).map
        (a.slack (c.plan plan).1) =
        (s.storedRows.filter (fun x => a.level (ofLex x.1).1 x.2 = j)).map (a.slack plan) := by
      apply List.map_congr_left
      intro x hx
      obtain ⟨hx, hxlevel⟩ := List.mem_filter.1 hx
      apply hother x hx
      rintro rfl
      exact hlevel (of_decide_eq_true hxlevel)
    rw [hcount, hsum]
    omega

/-- Taking an effect from the queue lowers its level and no other. -/
theorem Agreement.weight_pop (plan : Cascade) (eff : CascadeEffect) (queue : List CascadeEffect) :
    a.weight plan queue (a.level eff.table eff.oldRow) <
        a.weight plan (eff :: queue) (a.level eff.table eff.oldRow) ∧
      ∀ j, a.weight plan queue j ≤ a.weight plan (eff :: queue) j := by
  constructor
  · have hcount : (eff :: queue).countP
        (fun e => a.level e.table e.oldRow = a.level eff.table eff.oldRow) =
        queue.countP (fun e => a.level e.table e.oldRow = a.level eff.table eff.oldRow) + 1 :=
      List.countP_cons_of_pos (decide_eq_true rfl)
    rw [Agreement.weight, Agreement.weight, hcount]
    omega
  · intro j
    have : queue.countP (fun e => a.level e.table e.oldRow = j) ≤
        (eff :: queue).countP (fun e => a.level e.table e.oldRow = j) :=
      (List.sublist_cons_self _ _).countP_le
    rw [Agreement.weight, Agreement.weight]
    omega

end Weight

/-! ## The end of the loop -/

/-- A round lowers the level of the effect it takes, and raises no lower one. -/
theorem Agreement.weight_round (a : Agreement s x) (hs : s.Sound) {y z : LoopState}
    (hy : Rounds s x y) (hrewrites : Rewrites s y.1) (h : Round s y z) :
    Levels.Drops a.top (a.weight z.1 z.2) (a.weight y.1 y.2) := by
  cases h with
  | @skip plan eff queue hnone =>
    obtain ⟨hpop, hle⟩ := a.weight_pop plan eff queue
    exact ⟨_, a.level_le _ _, hpop, fun j _ => hle j⟩
  | @work plan eff queue parent acc hparent heffect =>
    obtain ⟨hpop, hle⟩ := a.weight_pop plan eff queue
    have hfollows : Follows s x eff := ⟨plan, queue, _, hy, .work hparent heffect⟩
    -- while the effect is worked on, the levels up to its own stay as they were
    have hrule : StepRule (fun e plan' queue' => Follows s x e ∧ Rewrites s plan' ∧
        ∀ j, j ≤ a.level e.table e.oldRow → a.weight plan' queue' j ≤ a.weight plan queue j)
        (fun (_ : ChildStep s s.allTables) _ => True) := by
      refine ⟨?_, fun _ _ _ _ => trivial, fun _ _ _ _ _ _ _ => trivial⟩
      rintro c plan' queue' ⟨hf, hrew, hweight⟩
      exact ⟨hf, hrew.step hs c, fun j hj =>
        le_trans (a.weight_step hs c hf hrew hj) (hweight j hj)⟩
    have hplan : Rewrites s plan := hrewrites
    obtain ⟨⟨-, -, hweight⟩, -, -⟩ := hrule.planEffect hparent
      ⟨hfollows, hplan, fun _ _ => le_refl _⟩ heffect
    exact ⟨_, a.level_le _ _, lt_of_le_of_lt (hweight _ (le_refl _)) hpop,
      fun j hj => le_trans (hweight j (le_of_lt hj)) (hle j)⟩

/-- Where the actions agree from a state on, the loop ends. -/
theorem Agreement.ends (a : Agreement s x) (hs : s.Sound) (hx : Rewrites s x.1) : Ends s x := by
  suffices h : ∀ y, Rounds s x y → Ends s y from h x .refl
  intro y
  induction hw : a.weight y.1 y.2 using (Levels.drops_wellFounded a.top).induction
    generalizing y with
  | _ w ih =>
    intro hy
    subst hw
    by_cases hround : ∃ z, Round s y z
    · obtain ⟨z, hz⟩ := hround
      rw [ends_round hz]
      exact ih _ (a.weight_round hs hy (hy.rewrites hs hx) hz) z rfl (hy.tail hz)
    · exact ends_of_stuck (fun z hz => hround ⟨z, hz⟩)

/-- The loop ends exactly when the actions settle from some round on. -/
theorem ends_iff_settles (hs : s.Sound) (hx : Rewrites s x.1) :
    Ends s x ↔ ∃ y, Rounds s x y ∧ ActionsSettle s (Follows s y) := by
  constructor
  · intro h
    obtain ⟨y, hy, hstuck⟩ := h.stuck
    -- nothing is worked off from there on
    have hnone : ∀ eff, ¬ Follows s y eff := by
      rintro eff ⟨plan, queue, z, hrounds, hround⟩
      rcases Relation.ReflTransGen.cases_head hrounds with rfl | ⟨w, hw, -⟩
      · exact hstuck z hround
      · exact hstuck w hw
    exact ⟨y, hy, 0, fun _ _ => 0, fun _ _ => le_refl _, fun c _ hf => absurd hf (hnone c.eff)⟩
  · rintro ⟨y, hy, hsettle⟩
    obtain ⟨a⟩ := hsettle.agreement
    exact (ends_rounds hy).2 (a.ends hs (hy.rewrites hs hx))

/-! ## Deleted rows -/

/-- A row with some cells set to NULL. -/
def Nulled (oldRow newRow : List Value) : Prop :=
  ∀ ci : Nat, newRow[ci]? = oldRow[ci]? ∨ newRow[ci]? = some .null

theorem Nulled.trans {a b c : List Value} (h : Nulled a b) (h' : Nulled b c) : Nulled a c := by
  intro ci
  rcases h' ci with hc | hc
  · rcases h ci with hb | hb
    · exact .inl (hc.trans hb)
    · exact .inr (hc.trans hb)
  · exact .inr hc

/-- The cells of a row some of whose cells became NULL are the old ones, or one is NULL. -/
theorem Nulled.keyCells {d : TableDef} {oldRow newRow : List Value} (h : Nulled oldRow newRow)
    {names : List String} {old new : List Value} (hold : keyCells d oldRow names = some old)
    (hnew : keyCells d newRow names = some new) : new = old := by
  induction names generalizing old new with
  | nil => cases hold; cases hnew; rfl
  | cons name names ih =>
    have hcell : CheckExpr.cell d newRow name = CheckExpr.cell d oldRow name ∨
        CheckExpr.cell d newRow name = some .null := by
      rw [CheckExpr.cell, CheckExpr.cell]
      cases d.colIndex name with
      | none => exact .inl rfl
      | some ci => exact h ci
    rw [Catalog.keyCells] at hold hnew
    split at hnew
    · cases hnew
    · next hnonnull =>
      rcases hcell with hcell | hcell
      · rw [hcell] at hnew hnonnull
        rw [if_neg hnonnull] at hold
        obtain ⟨olds, holds, rfl⟩ := Option.map_eq_some_iff.1 hold
        obtain ⟨news, hnews, rfl⟩ := Option.map_eq_some_iff.1 hnew
        rw [ih holds hnews]
      · rw [hcell] at hnonnull
        exact absurd rfl hnonnull

theorem setFkColumns_nulled (d : TableDef) (row : List Value) (names : List String) :
    Nulled row (setFkColumns d row names []) := by
  intro ci
  by_cases h : ci < row.length ∧ ∃ name ∈ names, d.colIndex name = some ci
  · obtain ⟨j, name, -, -, hval⟩ := setFkColumns_assigned [] h.1 h.2
    exact .inr hval
  · rw [not_and_or] at h
    rcases h with hlen | hnone
    · left
      rw [List.getElem?_eq_none (by rw [setFkColumns_length]; omega),
        List.getElem?_eq_none (by omega)]
    · exact .inl (setFkColumns_getElem? (fun name hname hci => hnone ⟨name, hname, hci⟩))

/-- An effect of a deleted row, or of one some of whose cells become NULL. -/
def CascadeEffect.Nulls (eff : CascadeEffect) : Prop :=
  ∀ newRow, eff.newRow = some newRow → Nulled eff.oldRow newRow

/-- Every action of such an effect sets NULL. -/
theorem ChildStep.rewrittenKey_nil (c : ChildStep s tables) (h : c.eff.Nulls) :
    rewrittenKey c.parent c.fk c.eff c.action = [] := by
  rw [rewrittenKey]
  split
  · have hacts := c.acts
    cases hnew : c.eff.newRow with
    | none => rfl
    | some newRow =>
      show (parentKeyOf c.parent c.fk newRow).getD [] = []
      -- a key that disappears to NULLs has no successor
      unfold fkAction at hacts
      rw [hnew] at hacts
      split at hacts
      · cases hacts
      · split at hacts
        · cases hacts
        · next oldKey hold =>
          dsimp only at hacts
          split at hacts
          · cases hacts
          · next hmoved =>
            cases hkey : parentKeyOf c.parent c.fk newRow with
            | none => rfl
            | some key =>
              refine absurd ?_ hmoved
              rw [hkey, (h newRow hnew).keyCells hold hkey]
              exact valuesEqv_refl _
  · rfl

/-- A closure that only sets cells to NULL. -/
structure OnlyNulls (s : CatState) (plan : Cascade) (queue : List CascadeEffect) : Prop where
  rewrites : Rewrites s plan
  forms : ∀ r ∈ plan.rewrites, Nulled r.2.1 r.2.2
  queued : ∀ eff ∈ queue, eff.Nulls

theorem ChildStep.nulled (hs : s.Sound) (c : ChildStep s s.allTables) (hnulls : c.eff.Nulls)
    (hrewrites : Rewrites s plan) (hforms : ∀ r ∈ plan.rewrites, Nulled r.2.1 r.2.2) :
    Nulled c.row (Catalog.rewritten c.parent c.child c.fk c.eff c.action plan c.pkKey c.row) := by
  -- the row is rewritten from itself, or from what an earlier action left of it
  obtain ⟨base, hbase, -, hcase, -⟩ := c.base hs.wellFormed hs.inOrder hrewrites
  rw [Catalog.rewritten, hbase, c.rewrittenKey_nil hnulls]
  refine Nulled.trans ?_ (setFkColumns_nulled c.child base c.fk.columns)
  rcases hcase with ⟨-, rfl⟩ | hfind
  · exact fun _ => .inl rfl
  · exact hforms _ (OrdMap.mem_of_find hfind)

theorem OnlyNulls.pop {eff : CascadeEffect} (h : OnlyNulls s plan (eff :: queue)) :
    eff.Nulls ∧ OnlyNulls s plan queue :=
  ⟨h.queued eff List.mem_cons_self, h.rewrites, h.forms,
    fun e he => h.queued e (List.mem_cons_of_mem _ he)⟩

/-- A step of an effect that nulls keys only nulls keys. -/
theorem OnlyNulls.step (hs : s.Sound) (c : ChildStep s s.allTables) (hnulls : c.eff.Nulls)
    (h : OnlyNulls s plan queue) : OnlyNulls s (c.plan plan).1 (queue ++ (c.plan plan).2) := by
  refine ⟨h.rewrites.step hs c, ?_, ?_⟩ <;>
    rcases planChild_cases c.parent c.child c.fk c.eff c.action plan c.pkKey c.row with
      ⟨-, hplan⟩ | ⟨-, -, -, hplan⟩ | ⟨-, -, new, hplan, hnew⟩ <;> rw [ChildStep.plan, hplan]
  · exact h.forms
  · exact fun r hr => h.forms r (List.mem_of_mem_filter hr)
  · intro r hr
    rcases OrdMap.mem_insert hr with rfl | hr
    · exact c.nulled hs hnulls h.rewrites h.forms
    · exact h.forms r hr
  · rw [List.append_nil]
    exact h.queued
  · intro e he
    rcases List.mem_append.1 he with he | he
    · exact h.queued e he
    · rw [List.mem_singleton.1 he]
      exact fun _ hnone => by cases hnone
  · intro e he
    rcases List.mem_append.1 he with he | he
    · exact h.queued e he
    · rw [hnew e he]
      intro newRow heq
      cases heq
      exact c.nulled hs hnulls h.rewrites h.forms

/-- The seeds of a delete rewrite nothing. -/
theorem OnlyNulls.seeds (seeds : List (String × Bytes × List Value)) :
    OnlyNulls s (seedDeletes (⟨[], [], []⟩, []) seeds).1
      (seedDeletes (⟨[], [], []⟩, []) seeds).2 := by
  obtain ⟨hrewrites, hqueue⟩ := seedDeletes_eq seeds ⟨[], [], []⟩ []
  refine ⟨?_, ?_, ?_⟩
  · intro r hr
    rw [hrewrites] at hr
    cases hr
  · intro r hr
    rw [hrewrites] at hr
    cases hr
  · intro eff heff newRow hnew
    rcases hqueue eff heff with h | h
    · cases h
    · rw [h] at hnew
      cases hnew

theorem Follows.nulls (hs : s.Sound) (hx : OnlyNulls s x.1 x.2) {eff : CascadeEffect}
    (h : Follows s x eff) : eff.Nulls := by
  obtain ⟨plan, queue, y, hrounds, -⟩ := h
  have hkept : OnlyNulls s plan (eff :: queue) :=
    hrounds.invariant (fun _ _ _ hp => hp.pop) (fun c _ _ hE hp => hp.step hs c hE)
      (fun _ _ _ hp => ⟨hp.rewrites, hp.forms, hp.queued⟩) hx
  exact hkept.pop.1

/-- The actions of a closure of deleted rows agree: they all assign NULL. -/
def deleteAgreement (hs : s.Sound) (hx : OnlyNulls s x.1 x.2) : Agreement s x where
  top := 0
  level _ _ := 0
  value _ _ := .null
  level_le _ _ := le_refl _
  agrees := by
    intro c hf _ ci v hv
    obtain ⟨j, name, -, -, rfl⟩ := hv
    rw [c.rewrittenKey_nil (hf.nulls hs hx)]
    rfl

/-! ## Rows that are queued again -/

/-- A row that is already rewritten goes to the queue again. -/
def ChildStep.Requeues (c : ChildStep s tables) (plan : Cascade) : Prop :=
  (OrdMap.find (rowRef c.child c.pkKey) plan.rewrites).isSome ∧ (c.plan plan).2 ≠ []

/-- Some round from a state on queues a row again. -/
def Requeues (s : CatState) (x : LoopState) : Prop :=
  ∃ plan eff queue y parent,
    ∃ hparent : s.allTables.find? (fun t => t.name = eff.table) = some parent, ∃ before c after,
      Rounds s x (plan, eff :: queue) ∧ Round s (plan, eff :: queue) y ∧
      effectSteps s hparent = before ++ c :: after ∧
      c.Requeues (before.foldl ChildStep.on (plan, queue)).1

/-- What is rewritten stays rewritten, to equal rows. -/
def KeepsForms (plan plan' : Cascade) : Prop :=
  ∀ r w, OrdMap.find r plan.rewrites = some w →
    ∃ w', OrdMap.find r plan'.rewrites = some w' ∧ valuesEqv w.2 w'.2 = true

theorem KeepsForms.refl (plan : Cascade) : KeepsForms plan plan :=
  fun _ w hw => ⟨w, hw, valuesEqv_refl w.2⟩

theorem KeepsForms.trans {p p' p'' : Cascade} (h : KeepsForms p p') (h' : KeepsForms p' p'') :
    KeepsForms p p'' := by
  intro r w hw
  obtain ⟨w', hw', heq⟩ := h r w hw
  obtain ⟨w'', hw'', heq'⟩ := h' r w' hw'
  exact ⟨w'', hw'', valuesEqv_trans heq heq'⟩

theorem ChangesOnly.pop {eff : CascadeEffect} (h : ChangesOnly s plan (eff :: queue)) :
    eff.newRow ≠ none ∧ ChangesOnly s plan queue :=
  ⟨h.queued eff List.mem_cons_self, h.deletes,
    fun e he => h.queued e (List.mem_cons_of_mem _ he), h.rewrites⟩

theorem Rounds.changesOnly (hs : s.Sound) {y : LoopState} (h : Rounds s x y)
    (hx : ChangesOnly s x.1 x.2) : ChangesOnly s y.1 y.2 :=
  h.invariant (fun _ _ _ hp => hp.pop) (fun c _ _ hE hp => hp.step hs c hE)
    (fun _ _ _ hp => ⟨hp.deletes, hp.queued, hp.rewrites⟩) hx

theorem ChangesOnly.plan_eq (h : ChangesOnly s plan queue) (c : ChildStep s s.allTables)
    (hE : c.eff.newRow ≠ none) : c.plan plan =
      ({ plan with
          rewrites := OrdMap.insert (rowRef c.child c.pkKey)
            (c.row, Catalog.rewritten c.parent c.child c.fk c.eff c.action plan c.pkKey c.row)
            plan.rewrites },
        if ((OrdMap.find (rowRef c.child c.pkKey) plan.rewrites).map Prod.snd).any (fun n =>
            rowsEqv n (Catalog.rewritten c.parent c.child c.fk c.eff c.action plan c.pkKey c.row))
        then []
        else [⟨c.child.name, c.row,
          some (Catalog.rewritten c.parent c.child c.fk c.eff c.action plan c.pkKey c.row)⟩]) := by
  refine planChild_rewrites c.row ?_ (fun hdooms => hE hdooms.2)
  rw [h.deletes]
  rfl

/-- A step that does not queue a row again leaves it what it is rewritten to. -/
theorem ChangesOnly.keepsForms (h : ChangesOnly s plan queue) (c : ChildStep s s.allTables)
    (hE : c.eff.newRow ≠ none) (hno : ¬ c.Requeues plan) : KeepsForms plan (c.plan plan).1 := by
  intro r w hw
  rw [ChildStep.Requeues, h.plan_eq c hE] at hno
  rw [h.plan_eq c hE]
  dsimp only at hno ⊢
  rw [OrdMap.find_insert]
  split
  · next heq =>
    subst heq
    refine ⟨_, rfl, ?_⟩
    rw [hw] at hno
    by_contra hne
    exact hno ⟨rfl, by simp [rowsEqv, hne]⟩
  · exact ⟨w, hw, valuesEqv_refl w.2⟩

/-- The steps of an effect that follow one another. -/
theorem ChangesOnly.steps (hs : s.Sound) {eff : CascadeEffect} (hE : eff.newRow ≠ none)
    {steps : List (ChildStep s s.allTables)} (heff : ∀ c ∈ steps, c.eff = eff)
    {acc : LoopState} (h : ChangesOnly s acc.1 acc.2) :
    ChangesOnly s (steps.foldl ChildStep.on acc).1 (steps.foldl ChildStep.on acc).2 ∧
      ((∀ before c after, steps = before ++ c :: after →
        ¬ c.Requeues (before.foldl ChildStep.on acc).1) →
          KeepsForms acc.1 (steps.foldl ChildStep.on acc).1) := by
  induction steps generalizing acc with
  | nil => exact ⟨h, fun _ => .refl _⟩
  | cons step steps ih =>
    have hstep : step.eff.newRow ≠ none := heff step List.mem_cons_self ▸ hE
    have hnext : ChangesOnly s (ChildStep.on acc step).1 (ChildStep.on acc step).2 :=
      h.step hs step hstep
    obtain ⟨hlast, hkeeps⟩ := ih (fun c hc => heff c (List.mem_cons_of_mem _ hc)) hnext
    refine ⟨hlast, fun hno => ?_⟩
    have hfirst := h.keepsForms step hstep (hno [] step steps rfl)
    refine hfirst.trans (hkeeps fun before c after hsplit => ?_)
    exact hno (step :: before) c after (by rw [hsplit]; rfl)

/-- Where no row is queued again, what is rewritten in one round stays so in all later ones. -/
theorem rounds_keepForms (hs : s.Sound) (hx : ChangesOnly s x.1 x.2) (hno : ¬ Requeues s x)
    {y z : LoopState} (hy : Rounds s x y) (hz : Rounds s y z) : KeepsForms y.1 z.1 := by
  induction hz with
  | refl => exact .refl _
  | @tail w z hw hround ih =>
    refine ih.trans ?_
    have hrounds : Rounds s x w := hy.trans hw
    have hchanges : ChangesOnly s w.1 w.2 := hrounds.changesOnly hs hx
    cases hround with
    | skip hnone => exact .refl _
    | @work plan eff queue parent acc hparent heffect =>
      obtain ⟨hE, hpopped⟩ := hchanges.pop
      have hbegin : ChangesOnly s (plan, queue).1 (plan, queue).2 := hpopped
      have hsteps := (hbegin.steps hs hE (fun c hc => (mem_effectSteps hparent).1 hc)).2
      rw [planEffect_eq_foldl hparent heffect]
      exact hsteps fun before c after hsplit hagain => hno ⟨plan, eff, queue, _, parent, hparent,
        before, c, after, hrounds, .work hparent heffect, hsplit, hagain⟩

/-- A column is assigned one value by a step: its foreign key names the column once. -/
theorem ChildStep.Assigns.unique (hs : s.Sound) {c : ChildStep s s.allTables} {ci : Nat}
    {v v' : Value} (h : c.Assigns ci v) (h' : c.Assigns ci v') : v = v' := by
  obtain ⟨image, himage, hdef⟩ := hs.wellFormed.mem_allTables c.mem
  have hwf := (hs.wellFormed.tables _ _ himage).def_
  rw [hdef] at hwf
  obtain ⟨j, name, hj, hname, rfl⟩ := h
  obtain ⟨j', name', hj', hname', rfl⟩ := h'
  cases TableDef.colIndex_inj hname hname'
  have hdistinct := (hwf.foreignKeys c.fk c.fkMem).distinct
  have hlt : j < c.fk.columns.length := (List.getElem?_eq_some_iff.1 hj).1
  rw [(List.getElem?_inj hlt hdistinct).1 (hj.trans hj'.symm)]

/-- What an action assigns is in the row once its effect is worked off. -/
theorem assigned_form (hs : s.Sound) (hx : ChangesOnly s x.1 x.2) (hno : ¬ Requeues s x)
    (c : ChildStep s s.allTables) (hf : Follows s x c.eff) {ci : Nat} {v : Value}
    (hv : c.Assigns ci v) : ∃ y w u, Rounds s x y ∧
      OrdMap.find (rowRef c.child c.pkKey) y.1.rewrites = some w ∧ w.2[ci]? = some u ∧
      v.eqv u = true := by
  obtain ⟨plan, queue, y, hrounds, hround⟩ := hf
  have hafter : Rounds s x y := hrounds.tail hround
  have hchanges : ChangesOnly s plan (c.eff :: queue) := hrounds.changesOnly hs hx
  obtain ⟨hE, hpopped⟩ := hchanges.pop
  generalize hat : (plan, c.eff :: queue) = start at hround
  cases hround with
  | skip hnone =>
    cases hat
    cases c.found.symm.trans hnone
  | @work plan' eff' queue' parent acc hparent heffect =>
    cases hat
    have heff : ∀ step ∈ effectSteps s hparent, step.eff = c.eff :=
      fun step hstep => (mem_effectSteps hparent).1 hstep
    obtain ⟨before, after, hsplit⟩ :=
      List.append_of_mem ((mem_effectSteps hparent).2 (rfl : c.eff = _))
    rw [hsplit] at heff
    have hbegin : ChangesOnly s (plan, queue).1 (plan, queue).2 := hpopped
    have hbefore := (hbegin.steps hs hE
      (fun step hstep => heff step (List.mem_append_left _ hstep))).1
    -- the step writes the value, and the steps after it leave the row as it is
    have hwritten : OrdMap.find (rowRef c.child c.pkKey)
        (ChildStep.on (before.foldl ChildStep.on (plan, queue)) c).1.rewrites = some (c.row,
          Catalog.rewritten c.parent c.child c.fk c.eff c.action
            (before.foldl ChildStep.on (plan, queue)).1 c.pkKey c.row) := by
      rw [ChildStep.on, hbefore.plan_eq c hE, OrdMap.find_insert, if_pos rfl]
    have hkeeps := (ChangesOnly.steps hs hE
      (fun step hstep => heff step (List.mem_append_right _ (List.mem_cons_of_mem _ hstep)))
      (hbefore.step hs c hE)).2 (fun before' step after' hsplit' hagain =>
        hno ⟨plan, c.eff, queue, _, parent, hparent, before ++ c :: before', step, after',
          hrounds, .work hparent heffect, by rw [hsplit, hsplit', List.append_assoc]; rfl, by
            rw [List.foldl_append]
            exact hagain⟩)
    obtain ⟨w, hw, heqv⟩ := hkeeps _ _ hwritten
    rcases c.rewritten_cell hs hbefore.rewrites ci with ⟨v', hv', hcell⟩ | ⟨hnone, -⟩
    · rw [hv.unique hs hv']
      obtain ⟨u, hu, hequal⟩ := valuesEqv_getElem? heqv hcell
      refine ⟨_, w, u, hafter, ?_, hu, hequal⟩
      rw [planEffect_eq_foldl hparent heffect, hsplit, List.foldl_append]
      exact hw
    · exact absurd hv (hnone v)

/-- Actions that do not settle queue some row again. -/
theorem requeues_of_not_settles (hs : s.Sound) (hx : ChangesOnly s x.1 x.2)
    (h : ¬ ActionsSettle s (Follows s x)) : Requeues s x := by
  by_contra hno
  refine h ⟨0, fun _ _ => 0, fun _ _ => le_refl _, ?_⟩
  intro c c' hf hf' href _ _ ci v v' hv hv'
  obtain ⟨y, w, u, hy, hw, hu, hvu⟩ := assigned_form hs hx hno c hf hv
  obtain ⟨y', w', u', hy', hw', hu', hvu'⟩ := assigned_form hs hx hno c' hf' hv'
  rw [← href] at hw'
  -- of the two states one comes after the other, and has the same rewrite of the row
  have hforms : u.eqv u' = true := by
    rcases hy.linear hy' with hlater | hlater
    · obtain ⟨w'', hw'', heqv⟩ := rounds_keepForms hs hx hno hy hlater _ _ hw
      cases hw'.symm.trans hw''
      obtain ⟨u'', hu'', hequal⟩ := valuesEqv_getElem? heqv hu
      cases hu'.symm.trans hu''
      exact hequal
    · obtain ⟨w'', hw'', heqv⟩ := rounds_keepForms hs hx hno hy' hlater _ _ hw'
      cases hw.symm.trans hw''
      obtain ⟨u'', hu'', hequal⟩ := valuesEqv_getElem? heqv hu'
      cases hu.symm.trans hu''
      exact Value.eqv_symm hequal
  exact Value.eqv_trans (Value.eqv_trans hvu hforms) (Value.eqv_symm hvu')

/-! ## Every closure of a run -/

theorem planCascade_delete_settles (hs : s.Sound) (seeds : List (String × Bytes × List Value)) :
    ∃ n, ∀ fuel, n ≤ fuel → planCascade s s.allTables fuel seeds [] ≠ .error .outOfFuel := by
  have hx : OnlyNulls s _ _ := .seeds seeds
  obtain ⟨n, hn⟩ := (deleteAgreement (x := (_, _)) hs hx).ends hs hx.rewrites
  refine ⟨n, fun fuel hfuel => ?_⟩
  rw [planCascade]
  dsimp only
  rw [List.map_nil, List.append_nil]
  exact hn fuel hfuel

/-- The effects changed rows start with. -/
def changeEffects (changes : List (String × List Value × List Value)) : List CascadeEffect :=
  changes.map (fun (table, oldRow, newRow) => ⟨table, oldRow, some newRow⟩)

/-- What the planner starts from for changed rows. -/
def changeStart (changes : List (String × List Value × List Value)) : LoopState :=
  (⟨[], [], []⟩, changeEffects changes)

theorem changesOnly_start (changes : List (String × List Value × List Value)) :
    ChangesOnly s (changeStart changes).1 (changeStart changes).2 := by
  refine ⟨rfl, fun eff heff => ?_, ?_⟩
  · obtain ⟨c, -, rfl⟩ := List.mem_map.1 heff
    exact Option.some_ne_none _
  · intro r hr
    cases hr

/-- A planned rewrite, as the effect of its row. -/
def rewriteEffect (r : RowRef × (List Value × List Value)) : CascadeEffect :=
  ⟨(ofLex r.1).1, r.2.1, some r.2.2⟩

/-- The effects that changes lead to in whatever order effects are worked off, one of them on rows
in any forms that the changes lead to. -/
inductive LeadsTo (s : CatState) (changes : List (String × List Value × List Value)) :
    CascadeEffect → Prop
  | seed {eff : CascadeEffect} (h : eff ∈ changeEffects changes) : LeadsTo s changes eff
  | work {eff new : CascadeEffect} {parent : TableDef} {plan : Cascade}
      {queue : List CascadeEffect} {acc : LoopState} (heff : LeadsTo s changes eff)
      (hplan : ChangesOnly s plan queue)
      (hrewrites : ∀ r ∈ plan.rewrites, LeadsTo s changes (rewriteEffect r))
      (hqueue : ∀ e ∈ queue, LeadsTo s changes e)
      (hparent : s.allTables.find? (fun t => t.name = eff.table) = some parent)
      (h : planEffect s s.allTables parent eff (plan, queue) = .ok acc)
      (hnew : new ∈ acc.2 ∨ new ∈ acc.1.rewrites.map rewriteEffect) : LeadsTo s changes new

/-- The loop only comes to what the changes lead to. -/
theorem Rounds.leadsTo (hs : s.Sound) {changes : List (String × List Value × List Value)}
    (h : Rounds s (changeStart changes) x) :
    (∀ r ∈ x.1.rewrites, LeadsTo s changes (rewriteEffect r)) ∧
      ∀ eff ∈ x.2, LeadsTo s changes eff := by
  induction h with
  | refl => exact ⟨fun r hr => (by cases hr), fun eff heff => .seed heff⟩
  | @tail y z hy hround ih =>
    obtain ⟨hrewrites, hqueue⟩ := ih
    cases hround with
    | skip hnone => exact ⟨hrewrites, fun e he => hqueue e (List.mem_cons_of_mem _ he)⟩
    | @work plan eff queue parent acc hparent h =>
      have hplan : ChangesOnly s plan queue :=
        (Rounds.changesOnly hs hy (changesOnly_start changes)).pop.2
      have hwork : ∀ new, new ∈ acc.2 ∨ new ∈ acc.1.rewrites.map rewriteEffect →
          LeadsTo s changes new :=
        fun new => .work (hqueue eff List.mem_cons_self) hplan hrewrites
          (fun e he => hqueue e (List.mem_cons_of_mem _ he)) hparent h
      exact ⟨fun r hr => hwork _ (.inr (List.mem_map_of_mem hr)), fun e he => hwork e (.inl he)⟩

theorem Follows.leadsTo (hs : s.Sound) {changes : List (String × List Value × List Value)}
    {eff : CascadeEffect} (h : Follows s (changeStart changes) eff) : LeadsTo s changes eff := by
  obtain ⟨plan, queue, y, hrounds, -⟩ := h
  exact (hrounds.leadsTo hs).2 eff List.mem_cons_self

/-- The planner empties its queue. -/
def ClosureEnds (s : CatState) (deletes : List (String × Bytes × List Value))
    (changes : List (String × List Value × List Value)) : Prop :=
  ∃ n, ∀ fuel, n ≤ fuel → planCascade s s.allTables fuel deletes changes ≠ .error .outOfFuel

/-- Where tables can be put in levels, each below those its foreign keys refer to, all actions
settle. -/
theorem ActionsSettle.of_acyclic {taken : CascadeEffect → Prop} {top : Nat} {level : String → Nat}
    (hle : ∀ t, level t ≤ top)
    (h : ∀ d ∈ s.allTables, ∀ fk ∈ d.foreignKeys, level fk.parent < level d.name) :
    ActionsSettle s taken := by
  refine ⟨top, fun t _ => level t, fun t _ => hle t, ?_⟩
  intro c c' _ _ _ hlevel
  -- no row is on its parent's level or above
  have hbelow := h c.child c.mem c.fk c.fkMem
  rw [(fkAction_eq_some c.acts).1] at hbelow
  exact absurd hlevel (Nat.not_le.2 hbelow)

end Settle

/-! ### A cycle that two keys disagree about -/

/-- What the planner holds between rounds when nothing is deleted: the rewrites and the queue. -/
abbrev RoundState := List (RowRef × (List Value × List Value)) × List CascadeEffect

/-- One round of the planner. -/
def planRound (s : CatState) (x : RoundState) : Option RoundState :=
  match x.2 with
  | [] => none
  | eff :: queue =>
    match s.allTables.find? (fun t => t.name = eff.table) with
    | none => none
    | some parent =>
      match planEffect s s.allTables parent eff (⟨[], x.1, []⟩, queue) with
      | .ok (⟨[], rewrites, _⟩, queue) => some (rewrites, queue)
      | _ => none

/-- The recorded effects, exchanged. -/
def withEffects (effects : List CascadeEffect) (acc : Cascade × List CascadeEffect) :
    Cascade × List CascadeEffect :=
  ({ acc.1 with effects := effects }, acc.2)

theorem planChildren_withEffects (effects : List CascadeEffect) (parent child : TableDef)
    (fk : ForeignKey) (eff : CascadeEffect) (action : RefAction)
    (acc : Cascade × List CascadeEffect) (children : List (Bytes × List Value)) :
    planChildren parent child fk eff action (withEffects effects acc) children =
      withEffects effects (planChildren parent child fk eff action acc children) := by
  induction children generalizing acc with
  | nil => rfl
  | cons x children ih =>
    have hstep : planChild parent child fk eff action { acc.1 with effects := effects } x.1 x.2 =
        ({ (planChild parent child fk eff action acc.1 x.1 x.2).1 with effects := effects },
          (planChild parent child fk eff action acc.1 x.1 x.2).2) := by
      unfold planChild
      dsimp only
      split
      · rfl
      · split <;> rfl
    rw [planChildren, planChildren, ← ih]
    exact congrArg (fun p => planChildren parent child fk eff action (p.1, acc.2 ++ p.2) children)
      hstep

/-- The planner does not read the effects it recorded. -/
theorem planEffect_withEffects (effects : List CascadeEffect) {s : CatState}
    {tables : List TableDef} (parent : TableDef) (eff : CascadeEffect)
    (acc : Cascade × List CascadeEffect) :
    planEffect s tables parent eff (withEffects effects acc) =
      (planEffect s tables parent eff acc).map (withEffects effects) := by
  apply Result.foldlM_map
  intro acc child
  apply Result.foldlM_map
  intro acc fk
  rw [planFk, planFk]
  split
  · rfl
  · rfl
  · cases scanChildren s child fk _ with
    | error err => rfl
    | ok children =>
      exact congrArg Except.ok (planChildren_withEffects _ _ _ _ _ _ _ _)

/-- Where every round leads to another, the queue is never empty. -/
theorem planLoop_diverges {s : CatState} {I : RoundState → Prop}
    (h : ∀ x, I x → ∃ y, planRound s x = some y ∧ I y) (fuel : Nat) {x : RoundState} (hx : I x)
    (effects : List CascadeEffect) :
    planLoop s s.allTables fuel ⟨[], x.1, effects⟩ x.2 = .error .outOfFuel := by
  induction fuel generalizing x effects with
  | zero =>
    obtain ⟨y, hy, -⟩ := h x hx
    obtain ⟨rewrites, queue⟩ := x
    cases queue with
    | nil => cases hy
    | cons eff queue => rfl
  | succ fuel ih =>
    obtain ⟨y, hy, hI⟩ := h x hx
    obtain ⟨rewrites, queue⟩ := x
    cases queue with
    | nil => cases hy
    | cons eff queue =>
      unfold planRound at hy
      dsimp only at hy
      rw [planLoop]
      dsimp only
      cases hparent : s.allTables.find? (fun t => t.name = eff.table) with
      | none =>
        rw [hparent] at hy
        cases hy
      | some parent =>
        rw [hparent] at hy
        dsimp only at hy ⊢
        -- what was worked off is only recorded: it does not change the round
        rw [show ((⟨[], rewrites, effects⟩, queue) : Cascade × List CascadeEffect) =
          withEffects effects (⟨[], rewrites, []⟩, queue) from rfl, planEffect_withEffects]
        split at hy
        · next rewrites' effects' queue' heffect =>
          cases hy
          rw [heffect]
          exact ih hI _
        · cases hy

/-- Keys with a short and a long spelling. -/
def keysDef : TableDef :=
  ⟨"keys", [ColumnDef.new "id" .i64, ColumnDef.new "short" .i64, ColumnDef.new "long" .i64],
    ["id"], [], [⟨"by_short", ["short"], true⟩, ⟨"by_long", ["long"], true⟩], []⟩

/-- Links with a code that is both spellings of a key, and a next link of the same code. -/
def linksDef : TableDef :=
  ⟨"links", [ColumnDef.new "id" .i64, ColumnDef.new "code" .i64, ColumnDef.new "slot" .i64,
      { ColumnDef.new "next" .i64 with nullable := true }], ["id"], [],
    [⟨"by_code", ["code", "slot"], true⟩],
    [⟨"of_short", ["code"], "keys", ["short"], .restrict, .cascade⟩,
      ⟨"of_long", ["code"], "keys", ["long"], .restrict, .cascade⟩,
      ⟨"of_next", ["code", "next"], "links", ["code", "slot"], .restrict, .cascade⟩]⟩

/-- Links without a next. -/
def looseLinksDef : TableDef :=
  { linksDef with foreignKeys := linksDef.foreignKeys.take 2 }

/-- A key and a link that is its own next. -/
def ownNext : List JobOp :=
  [.createTable keysDef, .createTable linksDef,
    .insert "keys" [[("id", .i64 1), ("short", .i64 1), ("long", .i64 1)]],
    .insert "links" [[("id", .i64 1), ("code", .i64 1), ("slot", .i64 5)]],
    .update "links" [.i64 1] [("next", .i64 5)]]

/-- The two spellings part. -/
def respell : JobOp := .update "keys" [.i64 1] [("short", .i64 2), ("long", .i64 3)]

/-- A key and a link that is no one's next. -/
def loneLink : List JobOp :=
  [.createTable keysDef, .createTable looseLinksDef,
    .insert "keys" [[("id", .i64 1), ("short", .i64 1), ("long", .i64 1)]],
    .insert "links" [[("id", .i64 1), ("code", .i64 1), ("slot", .i64 5)]]]

/-- The change of the key. -/
def respelled (s : CatState) : Option RowDelta :=
  (OrdMap.find "keys" s.tables).bind (fun image =>
    deltaOf (tickingEnv 5) s image "keys" [.i64 1] [("short", .i64 2), ("long", .i64 3)])

theorem respelled_eq_some {s : CatState} {d : RowDelta} (h : respelled s = some d) :
    ∃ image, OrdMap.find "keys" s.tables = some image ∧
      respell.Targets (tickingEnv 5) s "keys" image [d] := by
  obtain ⟨image, himage, hd⟩ := Option.bind_eq_some_iff.1 h
  exact ⟨image, himage, deltaOf_eq_some hd⟩

/-- Keys above links. -/
def keysFirst (t : String) : Nat := if t = "links" then 1 else 0

/-- Only links refer, and to keys. -/
def refersToKeys (s : CatState) : Bool :=
  (respelled s).isSome && s.allTables.all (fun d =>
    d.foreignKeys.all (fun fk => decide (keysFirst fk.parent < keysFirst d.name)))

/-- The first rounds of the planner. -/
def firstRounds (s : CatState) : Nat → RoundState → List RoundState
  | 0, _ => []
  | n + 1, x => x :: ((planRound s x).map (firstRounds s n)).getD []

/-- What the planner starts from for a changed row. -/
def startOf (d : RowDelta) : RoundState := ([], [⟨"keys", d.oldRow, some d.newRow⟩])

/-- After three rounds the planner is where it was after one. -/
def roundsReturn (s : CatState) : Bool :=
  (respelled s).any (fun d => (firstRounds s 3 (startOf d)).all (fun x =>
    (planRound s x).any (fun y => decide (y ∈ firstRounds s 3 (startOf d)))))

end Edb.Catalog
