import Edb.Catalog.RowValid
import Edb.Catalog.Statement

/-!
# The rows a statement leaves

A state as a map from tables and keys to stored rows, and what the parts of a row job do to it.
Moving index entries touches no row; a closure leaves the rows it rewrites in their new form,
takes the rows it deletes away and leaves every other row alone.
-/

namespace Edb.Catalog

open Edb.Types Edb.Lib

/-- The bytes stored for a row. -/
def CatState.rowAt (s : CatState) (t : String) (k : Bytes) : Option Bytes :=
  (OrdMap.find t s.tables).bind (fun image => OrdMap.find k image.data)

theorem CatState.rowAt_of_find {s : CatState} {t : String} {image : TableImage} (k : Bytes)
    (h : OrdMap.find t s.tables = some image) : s.rowAt t k = OrdMap.find k image.data := by
  rw [rowAt, h, Option.bind_some]

theorem CatState.find_store (s : CatState) (t t' : String) (b : TableImage) :
    OrdMap.find t' (s.store t b).tables = if t' = t then some b else OrdMap.find t' s.tables := by
  show OrdMap.find t' (OrdMap.insert t b s.tables) = _
  rw [OrdMap.find_insert]
  by_cases h : t' = t
  · rw [if_pos h, if_pos h.symm]
  · rw [if_neg h, if_neg (fun h' => h h'.symm)]

theorem CatState.rowAt_store (s : CatState) (t t' : String) (b : TableImage) (k : Bytes) :
    (s.store t b).rowAt t' k = if t' = t then OrdMap.find k b.data else s.rowAt t' k := by
  rw [rowAt, find_store]
  split
  · rfl
  · rfl

/-! ## Index entries -/

/-- Only index trees differ. -/
def TableImage.SameRows (a b : TableImage) : Prop := b.def_ = a.def_ ∧ b.data = a.data

theorem TableImage.SameRows.refl (a : TableImage) : a.SameRows a := ⟨rfl, rfl⟩

theorem TableImage.SameRows.trans {a b c : TableImage} (h : a.SameRows b) (h' : b.SameRows c) :
    a.SameRows c := ⟨h'.1.trans h.1, h'.2.trans h.2⟩

theorem TableImage.editIndex_sameRows {a b : TableImage} {index : String}
    {edit : TreeContents → JobResult TreeContents} (h : a.editIndex index edit = .ok b) :
    a.SameRows b := by
  obtain ⟨tree, -, h⟩ := Result.bind_eq_ok.1 h
  obtain ⟨tree', -, h⟩ := Result.bind_eq_ok.1 h
  cases h
  exact ⟨rfl, rfl⟩

theorem removeEntry_sameRows {a b : TableImage} {idx : IndexDef} {e : Option Entry}
    (h : removeEntry a idx e = .ok b) : a.SameRows b := by
  cases e with
  | none =>
    cases h
    exact .refl _
  | some e => exact TableImage.editIndex_sameRows h

theorem insertEntry_sameRows {a b : TableImage} {idx : IndexDef} {e : Option Entry}
    (h : insertEntry a idx e = .ok b) : a.SameRows b := by
  cases e with
  | none =>
    cases h
    exact .refl _
  | some e => exact TableImage.editIndex_sameRows h

theorem moveEntry_sameRows {a b : TableImage} {idx : IndexDef} {oldE newE : Option Entry}
    (h : moveEntry a idx oldE newE = .ok b) : a.SameRows b := by
  obtain ⟨c, hc, h⟩ := Result.bind_eq_ok.1 h
  exact (removeEntry_sameRows hc).trans (insertEntry_sameRows h)

theorem TableImage.foldlM_sameRows {α : Type} {f : TableImage → α → JobResult TableImage}
    {l : List α} {a b : TableImage} (h : l.foldlM f a = .ok b)
    (hstep : ∀ x ∈ l, ∀ b c, f b x = .ok c → b.SameRows c) : a.SameRows b := by
  apply Result.foldlM_invariant (I := fun b => a.SameRows b) h (.refl a)
  intro x hx b c hb hc
  exact hb.trans (hstep x hx b c hc)

/-! ## Rows of one table -/

theorem applyStaged_rows {a b : TableImage} {r : StagedRow} (h : applyStaged a r = .ok b) :
    b.def_ = a.def_ ∧ b.data = OrdMap.insert r.pkKey r.bytes a.data := by
  obtain ⟨data, hdata, h⟩ := Result.bind_eq_ok.1 h
  rw [treeInsert_eq_ok hdata] at h
  exact TableImage.foldlM_sameRows h (fun e _ b c hc => insertEntry_sameRows hc)

theorem applyDelta_rows {a b : TableImage} {d : RowDelta} (h : applyDelta a d = .ok b) :
    b.def_ = a.def_ ∧ b.data = OrdMap.insert d.pkKey d.bytes a.data := by
  obtain ⟨data, hdata, h⟩ := Result.bind_eq_ok.1 h
  rw [treeInsert_eq_ok hdata] at h
  exact TableImage.foldlM_sameRows h (fun m _ b c hc => moveEntry_sameRows hc)

/-- Deleting a row removes its key and leaves the others. -/
theorem deleteRowIndexed_rows {s s' : CatState} {def_ : TableDef} {pkKey : Bytes}
    {row : List Value} (h : deleteRowIndexed s def_ pkKey row = .ok s') :
    ∃ a b, OrdMap.find def_.name s.tables = some a ∧ s' = s.store def_.name b ∧
      b.def_ = a.def_ ∧ b.data = OrdMap.erase pkKey a.data := by
  obtain ⟨a, ha, h⟩ := Result.bind_eq_ok.1 h
  obtain ⟨_, -, h⟩ := Result.bind_eq_ok.1 h
  obtain ⟨b, hb, h⟩ := Result.bind_eq_ok.1 h
  cases h
  refine ⟨a, b, CatState.load_eq_ok.1 ha, rfl, ?_⟩
  apply TableImage.foldlM_sameRows hb
  intro idx _ b c hc
  obtain ⟨e, -, hc⟩ := Result.bind_eq_ok.1 hc
  exact removeEntry_sameRows hc

/-- Rewriting a row stores its new bytes under its key and leaves the others. -/
theorem rewriteRowIndexed_rows {s s' : CatState} {def_ : TableDef} {pkKey : Bytes}
    {oldRow newRow : List Value} (h : rewriteRowIndexed s def_ pkKey oldRow newRow = .ok s') :
    ∃ a b bytes, OrdMap.find def_.name s.tables = some a ∧ s' = s.store def_.name b ∧
      encodeRow newRow = .ok bytes ∧ b.def_ = a.def_ ∧
      b.data = OrdMap.insert pkKey bytes a.data := by
  obtain ⟨a, ha, h⟩ := Result.bind_eq_ok.1 h
  obtain ⟨_, -, h⟩ := Result.bind_eq_ok.1 h
  obtain ⟨bytes, hbytes, h⟩ := Result.bind_eq_ok.1 h
  obtain ⟨data, hdata, h⟩ := Result.bind_eq_ok.1 h
  obtain ⟨b, hb, h⟩ := Result.bind_eq_ok.1 h
  cases h
  rw [treeInsert_eq_ok hdata] at hb
  rw [rej_eq_ok, ofType_eq_ok] at hbytes
  refine ⟨a, b, bytes, CatState.load_eq_ok.1 ha, rfl, hbytes, ?_⟩
  apply TableImage.foldlM_sameRows hb
  intro idx _ b c hc
  obtain ⟨m, -, hc⟩ := Result.bind_eq_ok.1 hc
  split at hc
  · cases hc
    exact .refl _
  · exact moveEntry_sameRows hc

/-! ## Closures -/

section Closure

variable {s s' : CatState} {tables : List TableDef} {plan : Cascade}

/-- Every table of a state is among some definitions. -/
def CatState.KnownBy (s : CatState) (tables : List TableDef) : Prop :=
  ∀ t image, OrdMap.find t s.tables = some image →
    (tables.find? (fun def_ => def_.name = t)).isSome = true

/-- The tables and their definitions are the same. -/
def CatState.SameDefs (s s' : CatState) : Prop :=
  ∀ t, (OrdMap.find t s'.tables).map TableImage.def_ = (OrdMap.find t s.tables).map TableImage.def_

theorem CatState.SameDefs.refl (s : CatState) : s.SameDefs s := fun _ => rfl

theorem CatState.SameDefs.trans {s'' : CatState} (h : s.SameDefs s') (h' : s'.SameDefs s'') :
    s.SameDefs s'' := fun t => (h' t).trans (h t)

theorem CatState.SameDefs.store {t : String} {a b : TableImage}
    (ha : OrdMap.find t s.tables = some a) (hb : b.def_ = a.def_) : s.SameDefs (s.store t b) := by
  intro t'
  rw [CatState.find_store]
  split
  · next ht =>
    subst ht
    rw [ha, Option.map_some, Option.map_some, hb]
  · rfl

theorem CatState.SameDefs.isSome (h : s.SameDefs s') (t : String) :
    (OrdMap.find t s'.tables).isSome = (OrdMap.find t s.tables).isSome := by
  have := congrArg Option.isSome (h t)
  simpa using this

theorem CatState.KnownBy.same (h : s.KnownBy tables) (hs : s.SameDefs s') :
    s'.KnownBy tables := by
  intro t image himage
  have hsome : (OrdMap.find t s.tables).isSome = true := by
    rw [← hs.isSome, himage]
    rfl
  obtain ⟨a, ha⟩ := Option.isSome_iff_exists.1 hsome
  exact h t a ha

/-- One delete of a closure. -/
theorem deleteStep_rowAt {d : RowRef × List Value} (hk : s.KnownBy tables)
    (h : (match tables.find? (fun t => t.name = (ofLex d.1).1) with
      | none => (.ok s : JobResult CatState)
      | some def_ => deleteRowIndexed s def_ (ofLex d.1).2 d.2) = .ok s') :
    s.SameDefs s' ∧
      ∀ t k, s'.rowAt t k = if toLex (t, k) = d.1 then none else s.rowAt t k := by
  split at h
  · next hnone =>
    -- a delete whose table is unknown is skipped; such a row is not stored either
    cases h
    refine ⟨.refl _, fun t k => ?_⟩
    split
    · next href =>
      rw [← href] at hnone
      cases himage : OrdMap.find t s.tables with
      | none => rw [CatState.rowAt, himage, Option.bind_none]
      | some image =>
        have := hk t image himage
        rw [show tables.find? (fun def_ => def_.name = t) = none from hnone] at this
        cases this
    · rfl
  · next def_ hdef =>
    have hname : def_.name = (ofLex d.1).1 := by simpa using List.find?_some hdef
    obtain ⟨a, b, ha, rfl, hdef', hb⟩ := deleteRowIndexed_rows h
    refine ⟨.store ha hdef', fun t k => ?_⟩
    rw [CatState.rowAt_store]
    split
    · next ht =>
      subst ht
      rw [hb, OrdMap.find_erase, CatState.rowAt_of_find k ha]
      have hiff : toLex (def_.name, k) = d.1 ↔ (ofLex d.1).2 = k := by
        rw [hname]
        constructor
        · intro h
          rw [← h]
          rfl
        · intro h
          rw [← h]
          rfl
      by_cases hkey : (ofLex d.1).2 = k
      · rw [if_pos hkey, if_pos (hiff.2 hkey)]
      · rw [if_neg hkey, if_neg (fun h => hkey (hiff.1 h))]
    · next ht =>
      rw [if_neg]
      intro h
      rw [← h] at hname
      exact ht hname.symm

/-- One rewrite of a closure. -/
theorem rewriteStep_rowAt {r : RowRef × (List Value × List Value)} (hk : s.KnownBy tables)
    (h : (match tables.find? (fun t => t.name = (ofLex r.1).1) with
      | none => (.ok s : JobResult CatState)
      | some def_ => rewriteRowIndexed s def_ (ofLex r.1).2 r.2.1 r.2.2) = .ok s') :
    s.SameDefs s' ∧ (∀ t k, toLex (t, k) ≠ r.1 → s'.rowAt t k = s.rowAt t k) ∧
      ((OrdMap.find (ofLex r.1).1 s.tables).isSome → ∃ bytes, encodeRow r.2.2 = .ok bytes ∧
        s'.rowAt (ofLex r.1).1 (ofLex r.1).2 = some bytes) := by
  split at h
  · next hnone =>
    cases h
    refine ⟨.refl _, fun _ _ _ => rfl, fun hsome => ?_⟩
    obtain ⟨image, himage⟩ := Option.isSome_iff_exists.1 hsome
    have := hk _ image himage
    rw [hnone] at this
    cases this
  · next def_ hdef =>
    have hname : def_.name = (ofLex r.1).1 := by simpa using List.find?_some hdef
    obtain ⟨a, b, bytes, ha, rfl, hbytes, hdef', hb⟩ := rewriteRowIndexed_rows h
    refine ⟨.store ha hdef', fun t k hne => ?_, fun _ => ⟨bytes, hbytes, ?_⟩⟩
    · rw [CatState.rowAt_store]
      split
      · next ht =>
        subst ht
        rw [hb, OrdMap.find_insert, CatState.rowAt_of_find k ha, if_neg]
        intro h
        apply hne
        rw [← h, hname]
        rfl
      · rfl
    · rw [CatState.rowAt_store, if_pos hname.symm, hb, OrdMap.find_insert, if_pos rfl]

/-- After the deletes of a plan the rows they name are gone and the others as they were. -/
theorem deletes_rowAt {deletes : List (RowRef × List Value)} (hk : s.KnownBy tables)
    (h : deletes.foldlM (fun s d =>
      match tables.find? (fun t => t.name = (ofLex d.1).1) with
      | none => (.ok s : JobResult CatState)
      | some def_ => deleteRowIndexed s def_ (ofLex d.1).2 d.2) s = .ok s') :
    s.SameDefs s' ∧ ∀ t k, s'.rowAt t k =
      if (OrdMap.find (toLex (t, k)) deletes).isSome then none else s.rowAt t k := by
  induction deletes generalizing s with
  | nil =>
    cases h
    exact ⟨.refl _, fun t k => rfl⟩
  | cons d deletes ih =>
    obtain ⟨s₁, hd, h⟩ := Result.bind_eq_ok.1 h
    obtain ⟨hsame, hrow⟩ := deleteStep_rowAt hk hd
    obtain ⟨hsame', hrow'⟩ := ih (hk.same hsame) h
    refine ⟨hsame.trans hsame', fun t k => ?_⟩
    rw [hrow', hrow, OrdMap.find]
    by_cases href : d.1 = toLex (t, k)
    · rw [if_pos href, if_pos href.symm, ite_self]
      rfl
    · have hne : ¬ toLex (t, k) = d.1 := fun h => href h.symm
      rw [if_neg href, if_neg hne]

/-- After the rewrites of a plan the rows they name have their new form. -/
theorem rewrites_rowAt {rewrites : List (RowRef × (List Value × List Value))}
    (hk : s.KnownBy tables) (hsorted : OrdMap.Sorted rewrites)
    (h : rewrites.foldlM (fun s r =>
      match tables.find? (fun t => t.name = (ofLex r.1).1) with
      | none => (.ok s : JobResult CatState)
      | some def_ => rewriteRowIndexed s def_ (ofLex r.1).2 r.2.1 r.2.2) s = .ok s') :
    s.SameDefs s' ∧
      (∀ t k, OrdMap.find (toLex (t, k)) rewrites = none → s'.rowAt t k = s.rowAt t k) ∧
      ∀ t k w, OrdMap.find (toLex (t, k)) rewrites = some w →
        (OrdMap.find t s.tables).isSome = true →
        ∃ bytes, encodeRow w.2 = .ok bytes ∧ s'.rowAt t k = some bytes := by
  induction rewrites generalizing s with
  | nil =>
    cases h
    refine ⟨.refl _, fun _ _ _ => rfl, fun t k w hw => ?_⟩
    cases hw
  | cons r rewrites ih =>
    obtain ⟨s₁, hr, h⟩ := Result.bind_eq_ok.1 h
    obtain ⟨hfirst, hsorted⟩ := OrdMap.sorted_cons.1 hsorted
    obtain ⟨hsame, hother, hself⟩ := rewriteStep_rowAt hk hr
    obtain ⟨hsame', hother', hself'⟩ := ih (hk.same hsame) hsorted h
    refine ⟨hsame.trans hsame', fun t k hnone => ?_, fun t k w hw hsome => ?_⟩
    · rw [OrdMap.find] at hnone
      split at hnone
      · cases hnone
      · next hne => rw [hother' t k hnone, hother t k (fun h => hne h.symm)]
    · rw [OrdMap.find] at hw
      split at hw
      · next href =>
        cases hw
        -- no later rewrite is of the same row
        have hlater : OrdMap.find (toLex (t, k)) rewrites = none := by
          apply OrdMap.find_eq_none_of_forall_ne
          intro e he heq
          have := hfirst e he
          rw [heq, href] at this
          exact lt_irrefl _ this
        rw [href] at hself
        obtain ⟨bytes, hbytes, hrow⟩ := hself hsome
        exact ⟨bytes, hbytes, (hother' t k hlater).trans hrow⟩
      · exact hself' t k w hw ((hsame.isSome t).trans hsome)

/-- What applying a closure leaves of every row. -/
theorem applyCascade_rowAt (hk : s.KnownBy tables) (hsorted : OrdMap.Sorted plan.rewrites)
    (h : applyCascade s tables plan = .ok s') :
    s.SameDefs s' ∧
      (∀ t k, OrdMap.find (toLex (t, k)) plan.rewrites = none → s'.rowAt t k =
        if (OrdMap.find (toLex (t, k)) plan.deletes).isSome then none else s.rowAt t k) ∧
      ∀ t k w, OrdMap.find (toLex (t, k)) plan.rewrites = some w →
        (OrdMap.find t s.tables).isSome = true →
        ∃ bytes, encodeRow w.2 = .ok bytes ∧ s'.rowAt t k = some bytes := by
  obtain ⟨s₁, hdel, hrew⟩ := Result.bind_eq_ok.1 h
  obtain ⟨hsame, hdeleted⟩ := deletes_rowAt hk hdel
  obtain ⟨hsame', hother, hself⟩ := rewrites_rowAt (hk.same hsame) hsorted hrew
  refine ⟨hsame.trans hsame', fun t k hnone => ?_, fun t k w hw hsome => ?_⟩
  · rw [hother t k hnone, hdeleted]
  · exact hself t k w hw ((hsame.isSome t).trans hsome)

end Closure

/-! ## Rows in key order -/

/-- The rows of every table are in key order. -/
def CatState.InOrder (s : CatState) : Prop :=
  ∀ t image, OrdMap.find t s.tables = some image → OrdMap.Sorted image.data

theorem CatState.InOrder.store {s : CatState} {t : String} {b : TableImage} (h : s.InOrder)
    (hb : OrdMap.Sorted b.data) : (s.store t b).InOrder := by
  intro t' image himage
  rw [CatState.find_store] at himage
  split at himage
  · cases himage
    exact hb
  · exact h t' image himage

/-! ## Planned closures -/

section Planned

variable {s : CatState} {tables : List TableDef} {fuel : Nat} {plan : Cascade}

theorem seedDeletes_sorted {seeds : List (String × Bytes × List Value)} {p : Cascade}
    (queue : List CascadeEffect) (h : OrdMap.Sorted p.deletes) :
    OrdMap.Sorted (seedDeletes (p, queue) seeds).1.deletes := by
  induction seeds generalizing p queue with
  | nil => exact h
  | cons seed seeds ih =>
    rw [seedDeletes]
    exact ih _ h.insert

/-- A plan has each row once among its rewrites and once among its deletes. -/
theorem planCascade_sorted {seeds : List (String × Bytes × List Value)}
    {changes : List (String × List Value × List Value)}
    (h : planCascade s tables fuel seeds changes = .ok plan) :
    OrdMap.Sorted plan.rewrites ∧ OrdMap.Sorted plan.deletes := by
  apply planLoop_invariant (E := fun _ => True)
    (I := fun p _ => OrdMap.Sorted p.rewrites ∧ OrdMap.Sorted p.deletes) _ _ _ h
  · refine ⟨?_, seedDeletes_sorted _ OrdMap.sorted_nil⟩
    rw [(seedDeletes_eq seeds ⟨[], [], []⟩ []).1]
    exact OrdMap.sorted_nil
  · intro p eff queue hp
    exact ⟨trivial, hp⟩
  · intro c p queue _ hp
    rcases planChild_cases c.parent c.child c.fk c.eff c.action p c.pkKey c.row with
      ⟨-, hplan⟩ | ⟨-, -, -, hplan⟩ | ⟨-, -, new, hplan, -⟩ <;> rw [ChildStep.plan, hplan]
    · exact hp
    · exact ⟨hp.1.erase, hp.2.insert⟩
    · exact ⟨hp.1.insert, hp.2⟩
  · intro p eff queue _ hp
    exact hp

/-- Changed rows delete nothing. -/
theorem planCascade_deletes {changes : List (String × List Value × List Value)}
    (h : planCascade s tables fuel [] changes = .ok plan) : plan.deletes = [] := by
  refine (planLoop_invariant (E := fun eff => eff.newRow ≠ none)
    (I := fun p queue => p.deletes = [] ∧ ∀ eff ∈ queue, eff.newRow ≠ none) ?_ ?_ ?_ h ?_).1
  · intro p eff queue hp
    exact ⟨hp.2 eff (List.mem_cons_self ..), hp.1, fun e he => hp.2 e (List.mem_cons_of_mem _ he)⟩
  · intro c p queue hE hp
    rcases planChild_cases c.parent c.child c.fk c.eff c.action p c.pkKey c.row with
      ⟨-, hplan⟩ | ⟨-, -, hnone, -⟩ | ⟨-, -, new, hplan, hnew⟩
    · rw [ChildStep.plan, hplan, List.append_nil]
      exact hp
    · exact absurd hnone hE
    · rw [ChildStep.plan, hplan]
      refine ⟨hp.1, fun e he => ?_⟩
      rcases List.mem_append.1 he with he | he
      · exact hp.2 e he
      · rw [hnew e he]
        exact Option.some_ne_none _
  · intro p eff queue _ hp
    exact hp
  · refine ⟨rfl, fun eff heff => ?_⟩
    obtain ⟨c, -, rfl⟩ := List.mem_map.1 heff
    exact Option.some_ne_none _

/-- Only the named columns are written. -/
theorem setFkColumns_getElem? {d : TableDef} {row : List Value} {names : List String}
    {vals : List Value} {ci : Nat}
    (h : ∀ name ∈ names, d.colIndex name ≠ some ci) :
    (setFkColumns d row names vals)[ci]? = row[ci]? := by
  induction names generalizing row vals with
  | nil => rfl
  | cons name names ih =>
    rw [setFkColumns]
    cases hcj : d.colIndex name with
    | none => exact ih (fun n hn => h n (List.mem_cons_of_mem _ hn))
    | some cj =>
      rw [ih (fun n hn => h n (List.mem_cons_of_mem _ hn)), List.getElem?_set_ne]
      intro heq
      exact h name (List.mem_cons_self ..) (heq ▸ hcj)

theorem setFkColumns_length {d : TableDef} {row : List Value} {names : List String}
    {vals : List Value} : (setFkColumns d row names vals).length = row.length := by
  induction names generalizing row vals with
  | nil => rfl
  | cons name names ih =>
    rw [setFkColumns]
    cases d.colIndex name with
    | none => exact ih
    | some cj => exact ih.trans List.length_set

/-- A column is a referencing column of some foreign key of the table. -/
def TableDef.IsFkColumn (d : TableDef) (ci : Nat) : Prop :=
  ∃ fk ∈ d.foreignKeys, ∃ name ∈ fk.columns, d.colIndex name = some ci

/-- A rewrite is of a stored row, and differs from it in referencing columns only. -/
structure RewriteOf (s : CatState) (image : TableImage) (r : RowRef × (List Value × List Value)) :
    Prop where
  found : OrdMap.find (ofLex r.1).1 s.tables = some image
  stored : ∃ bytes, ((ofLex r.1).2, bytes) ∈ image.data ∧ decodePadded image.def_ bytes = .ok r.2.1
  length : r.2.2.length = r.2.1.length
  cells : ∀ ci, ¬ image.def_.IsFkColumn ci → r.2.2[ci]? = r.2.1[ci]?

/-- The stored row a step of the planner meets. -/
theorem ChildStep.stored (hs : s.WellFormed) (c : ChildStep s s.allTables) :
    ∃ image bytes, OrdMap.find c.child.name s.tables = some image ∧ image.def_ = c.child ∧
      (c.pkKey, bytes) ∈ image.data ∧ decodePadded image.def_ bytes = .ok c.row := by
  obtain ⟨image, himage, hdef⟩ := hs.mem_allTables c.mem
  obtain ⟨children, hscan, hmem⟩ := c.scanned
  obtain ⟨image', himage', hrows⟩ := scanChildren_eq_ok hscan
  cases himage.symm.trans himage'
  obtain ⟨bytes, hdata, hdec, -⟩ := hrows _ hmem
  exact ⟨image, bytes, himage, hdef, hdata, hdef ▸ hdec⟩

/-- A rewrite of the row a step meets starts from that row. -/
theorem ChildStep.sameRow (hs : s.WellFormed) (ho : s.InOrder) (c : ChildStep s s.allTables)
    {image : TableImage} {w : List Value × List Value}
    (h : RewriteOf s image (rowRef c.child c.pkKey, w)) : w.1 = c.row := by
  obtain ⟨image', bytes, himage, -, hmem, hdec⟩ := c.stored hs
  cases himage.symm.trans h.found
  obtain ⟨bytes', hmem', hdec'⟩ := h.stored
  have hsame : bytes' = bytes := Option.some_inj.1
    (((OrdMap.find_eq_some_iff (ho _ _ himage)).2 hmem').symm.trans
      ((OrdMap.find_eq_some_iff (ho _ _ himage)).2 hmem))
  subst hsame
  exact Except.ok.inj (hdec'.symm.trans hdec)

/-- What a row is rewritten from: an earlier rewrite of it, or the stored row. -/
theorem ChildStep.base (hs : s.WellFormed) (ho : s.InOrder) (c : ChildStep s s.allTables)
    (hp : ∀ r ∈ plan.rewrites, ∃ image, RewriteOf s image r) :
    ∃ base, ((OrdMap.find (rowRef c.child c.pkKey) plan.rewrites).map Prod.snd).getD c.row = base ∧
      base.length = c.row.length ∧
      ((OrdMap.find (rowRef c.child c.pkKey) plan.rewrites = none ∧ base = c.row) ∨
        OrdMap.find (rowRef c.child c.pkKey) plan.rewrites = some (c.row, base)) ∧
      ∀ ci, ¬ c.child.IsFkColumn ci → base[ci]? = c.row[ci]? := by
  obtain ⟨image, bytes, himage, hdef, -, -⟩ := c.stored hs
  cases hw : OrdMap.find (rowRef c.child c.pkKey) plan.rewrites with
  | none => exact ⟨c.row, rfl, rfl, .inl ⟨rfl, rfl⟩, fun _ _ => rfl⟩
  | some w =>
    obtain ⟨image', hr⟩ := hp _ (OrdMap.mem_of_find hw)
    have hrow := c.sameRow hs ho hr
    cases himage.symm.trans hr.found
    refine ⟨w.2, rfl, hrow ▸ hr.length, .inr ?_, ?_⟩
    · rw [← hrow]
    · intro ci hci
      rw [← hrow]
      exact hr.cells ci (hdef ▸ hci)

/-- A step that rewrites a row keeps every rewrite one of a stored row. -/
theorem ChildStep.rewriteOf (hs : s.WellFormed) (ho : s.InOrder) (c : ChildStep s s.allTables)
    (hp : ∀ r ∈ plan.rewrites, ∃ image, RewriteOf s image r) :
    ∃ image, RewriteOf s image (rowRef c.child c.pkKey,
      (c.row, rewritten c.parent c.child c.fk c.eff c.action plan c.pkKey c.row)) := by
  obtain ⟨image, bytes, himage, hdef, hmem, hdec⟩ := c.stored hs
  obtain ⟨base, hbase, hlen, -, hcells⟩ := c.base hs ho hp
  refine ⟨image, himage, ⟨bytes, hmem, hdec⟩, ?_, fun ci hci => ?_⟩
  · show (setFkColumns _ _ _ _).length = _
    rw [setFkColumns_length, hbase, hlen]
  · show (setFkColumns _ _ _ _)[ci]? = _
    rw [hdef] at hci
    rw [setFkColumns_getElem?, hbase, hcells ci hci]
    intro name hname hcol
    exact hci ⟨c.fk, c.fkMem, name, hname, hcol⟩

/-- Every rewrite of a plan is one of a stored row. -/
theorem planCascade_rewriteOf (hs : s.WellFormed) (ho : s.InOrder)
    {seeds : List (String × Bytes × List Value)}
    {changes : List (String × List Value × List Value)}
    (h : planCascade s s.allTables fuel seeds changes = .ok plan) :
    ∀ r ∈ plan.rewrites, ∃ image, RewriteOf s image r := by
  apply planLoop_invariant (E := fun _ => True)
    (I := fun p _ => ∀ r ∈ p.rewrites, ∃ image, RewriteOf s image r) _ _ _ h
  · intro r hr
    rw [(seedDeletes_eq seeds ⟨[], [], []⟩ []).1] at hr
    cases hr
  · intro p eff queue hp
    exact ⟨trivial, hp⟩
  · intro c p queue _ hp
    rcases planChild_cases c.parent c.child c.fk c.eff c.action p c.pkKey c.row with
      ⟨-, hplan⟩ | ⟨-, -, -, hplan⟩ | ⟨-, -, new, hplan, -⟩ <;> rw [ChildStep.plan, hplan]
    · exact hp
    · intro r hr
      exact hp r (List.mem_of_mem_filter hr)
    · intro r hr
      rcases OrdMap.mem_insert hr with rfl | hr
      · exact c.rewriteOf hs ho hp
      · exact hp r hr
  · intro p eff queue _ hp
    exact hp

end Planned

/-- The rewrites of a statement's closure. -/
def rewritesOf (referential : Option Cascade) : List (RowRef × (List Value × List Value)) :=
  referential.elim [] Cascade.rewrites

/-- Each definition of a well-formed state is found by its name. -/
theorem CatState.WellFormed.knownBy {s : CatState} (hs : s.WellFormed) :
    s.KnownBy s.allTables := by
  intro t image himage
  rw [hs.find_allTables, himage]
  rfl

section Changes

variable {fuel : Nat} {s s' : CatState} {table : String} {image : TableImage}
  {deltas : List RowDelta} {referential : Option Cascade}

/-- After the changes of an update each row it names has its new bytes. -/
theorem foldlM_applyDelta_rows {a b : TableImage} (hkeys : (deltas.map RowDelta.pkKey).Nodup)
    (h : deltas.foldlM applyDelta a = .ok b) :
    b.def_ = a.def_ ∧ (∀ d ∈ deltas, OrdMap.find d.pkKey b.data = some d.bytes) ∧
      ∀ k, (∀ d ∈ deltas, d.pkKey ≠ k) → OrdMap.find k b.data = OrdMap.find k a.data := by
  induction deltas generalizing a with
  | nil =>
    cases h
    exact ⟨rfl, fun d hd => absurd hd List.not_mem_nil, fun _ _ => rfl⟩
  | cons d deltas ih =>
    obtain ⟨c, hc, h⟩ := Result.bind_eq_ok.1 h
    obtain ⟨hdef, hdata⟩ := applyDelta_rows hc
    obtain ⟨hnot, hkeys⟩ := List.nodup_cons.1 hkeys
    obtain ⟨hdef', hself, hother⟩ := ih hkeys h
    refine ⟨hdef'.trans hdef, fun d' hd' => ?_, fun k hk => ?_⟩
    · rcases List.mem_cons.1 hd' with rfl | hd'
      · rw [hother, hdata, OrdMap.find_insert, if_pos rfl]
        intro d'' hd'' heq
        exact hnot (heq ▸ List.mem_map_of_mem hd'')
      · exact hself d' hd'
    · rw [hother k (fun d' hd' => hk d' (List.mem_cons_of_mem _ hd')), hdata, OrdMap.find_insert,
        if_neg (hk d (List.mem_cons_self ..))]

/-- What a change leaves of every row. -/
structure Change.Leaves (s : CatState) (table : String) (deltas : List RowDelta)
    (rewrites : List (RowRef × (List Value × List Value))) (s' : CatState) : Prop where
  defs : s.SameDefs s'
  rewritten : ∀ t k w, OrdMap.find (toLex (t, k)) rewrites = some w →
    (OrdMap.find t s.tables).isSome = true →
    ∃ bytes, encodeRow w.2 = .ok bytes ∧ s'.rowAt t k = some bytes
  target : ∀ d ∈ deltas, OrdMap.find (toLex (table, d.pkKey)) rewrites = none →
    s'.rowAt table d.pkKey = some d.bytes
  other : ∀ t k, OrdMap.find (toLex (t, k)) rewrites = none →
    (t = table → ∀ d ∈ deltas, d.pkKey ≠ k) → s'.rowAt t k = s.rowAt t k

theorem Change.nodup (ho : s.InOrder) (h : Change fuel s table image deltas referential s') :
    (deltas.map RowDelta.pkKey).Nodup :=
  ((ho _ _ h.found).keys.imp (fun hlt => ne_of_lt hlt)).sublist h.keys

/-- An update leaves its own rows changed, those of its cascade rewritten and the others alone. -/
theorem Change.leaves (hs : s.WellFormed) (ho : s.InOrder)
    (h : Change fuel s table image deltas referential s') :
    Change.Leaves s table deltas (rewritesOf referential) s' := by
  obtain ⟨image', himage', happly⟩ := Result.bind_eq_ok.1 h.applied
  obtain ⟨hdef, hself, hother⟩ := foldlM_applyDelta_rows (h.nodup ho) himage'
  have hsame : s.SameDefs (s.store table image') := .store h.found hdef
  have htarget : ∀ d ∈ deltas, (s.store table image').rowAt table d.pkKey = some d.bytes := by
    intro d hd
    rw [CatState.rowAt_store, if_pos rfl]
    exact hself d hd
  have hrest : ∀ t k, (t = table → ∀ d ∈ deltas, d.pkKey ≠ k) →
      (s.store table image').rowAt t k = s.rowAt t k := by
    intro t k hk
    rw [CatState.rowAt_store]
    split
    · next ht =>
      rw [ht, CatState.rowAt_of_find k h.found]
      exact hother k (hk ht)
    · rfl
  cases referential with
  | none =>
    cases happly
    exact ⟨hsame, (fun t k w hw => by cases hw), fun d hd _ => htarget d hd,
      fun t k _ hk => hrest t k hk⟩
  | some plan =>
    obtain ⟨hplan, -, -⟩ := planReferential_eq_ok h.planned
    obtain ⟨hsame', hnone, hsome⟩ := applyCascade_rowAt (hs.knownBy.same hsame)
      (planCascade_sorted hplan).1 happly
    rw [planCascade_deletes hplan] at hnone
    refine ⟨hsame.trans hsame', fun t k w hw ht => ?_, fun d hd hno => ?_, fun t k hno hk => ?_⟩
    · exact hsome t k w hw ((hsame.isSome t).trans ht)
    · exact (hnone table d.pkKey hno).trans (htarget d hd)
    · exact (hnone t k hno).trans (hrest t k hk)

end Changes

/-! ## Inserts and removals -/

section

variable {env : Env} {fuel : Nat} {s s' : CatState} {table : String}

/-- The rows staged for an insert have keys that no stored row has. -/
theorem stagedRows_fresh {image : TableImage} {input : List (List (String × Value))}
    {seq : Int64} {st : Staged}
    (h : input.foldlM (stageRow env s image) ⟨[], [], seq⟩ = .ok st) :
    ∀ r ∈ st.rows, OrdMap.find r.pkKey image.data = none := by
  apply Result.foldlM_invariant (I := fun st => ∀ r ∈ st.rows,
    OrdMap.find r.pkKey image.data = none) h (fun r hr => absurd hr List.not_mem_nil)
  intro provided _ st st' hst hstage r hr
  obtain ⟨r', hr', hrows, -⟩ := stageRow_eq_ok hstage
  rw [hrows] at hr
  rcases List.mem_append.1 hr with hr | hr
  · exact hst r hr
  · rw [List.mem_singleton.1 hr]
    exact hr'.fresh.2

/-- An insert leaves the rows that are there alone. -/
theorem insert_rowAt {input : List (List (String × Value))} {rows : List (List Value)}
    (h : insert env s table input = .ok (rows, s')) :
    s.SameDefs s' ∧ ∀ t k bytes, s.rowAt t k = some bytes → s'.rowAt t k = some bytes := by
  obtain ⟨image, st, image', himage, hst, himage', hs'⟩ := insert_eq_ok h
  have hfresh := stagedRows_fresh hst
  have hrows : image'.def_ = image.def_ ∧ ∀ k bytes, OrdMap.find k image.data = some bytes →
      OrdMap.find k image'.data = some bytes := by
    apply Result.foldlM_invariant (I := fun b => b.def_ = image.def_ ∧ ∀ k bytes,
      OrdMap.find k image.data = some bytes → OrdMap.find k b.data = some bytes) himage'
      ⟨rfl, fun _ _ h => h⟩
    intro r hr b c hb hc
    obtain ⟨hdef, hdata⟩ := applyStaged_rows hc
    refine ⟨hdef.trans hb.1, fun k bytes hk => ?_⟩
    rw [hdata, OrdMap.find_insert, if_neg]
    · exact hb.2 k bytes hk
    · intro heq
      rw [← heq, hfresh r hr] at hk
      cases hk
  have hstore : s.SameDefs (s.store table image') ∧ ∀ t k bytes, s.rowAt t k = some bytes →
      (s.store table image').rowAt t k = some bytes := by
    refine ⟨.store himage hrows.1, fun t k bytes hrow => ?_⟩
    rw [CatState.rowAt_store]
    split
    · next ht =>
      rw [ht, CatState.rowAt_of_find k himage] at hrow
      exact hrows.2 k bytes hrow
    · exact hrow
  rw [hs']
  split
  · exact hstore
  · exact hstore

/-- What a removal leaves of every row. -/
theorem Removal.rowAt {seeds : List (String × Bytes × List Value)} {plan : Cascade}
    (hs : s.WellFormed) (h : Removal fuel s table seeds plan s') :
    s.SameDefs s' ∧ ∀ t k, OrdMap.find (toLex (t, k)) plan.rewrites = none → s'.rowAt t k =
      if (OrdMap.find (toLex (t, k)) plan.deletes).isSome then none else s.rowAt t k := by
  obtain ⟨hsame, hnone, -⟩ := applyCascade_rowAt hs.knownBy (planCascade_sorted h.planned).1
    h.applied
  exact ⟨hsame, hnone⟩

end

/-! ## Every job keeps the rows in order and readable -/

section Lengths

variable {d : TableDef} {row row' : List Value}

theorem applySets_length {table : String} {sets : List (String × Value)}
    (h : applySets table d row sets = .ok row') : row'.length = row.length := by
  induction sets generalizing row with
  | nil =>
    cases h
    rfl
  | cons e sets ih =>
    obtain ⟨name, value⟩ := e
    rw [applySets] at h
    cases hcj : d.colIndex name with
    | none =>
      rw [hcj] at h
      cases h
    | some cj =>
      rw [hcj] at h
      change (if d.isPk cj = true then _ else _) = _ at h
      obtain ⟨-, h⟩ := Result.guard_eq_ok.1 h
      obtain ⟨-, h⟩ := Result.guard_eq_ok.1 h
      obtain ⟨_, -, h⟩ := Result.bind_eq_ok.1 h
      rw [ih h, List.length_set]

theorem decodePadded_length {bytes : Bytes} (h : decodePadded d bytes = .ok row) :
    row.length = d.columns.length := by
  obtain ⟨raw, -, hle, rfl⟩ := decodePadded_eq_ok h
  rw [List.length_append, List.length_map, List.length_drop]
  omega

theorem transformRow_length {now : Int64} {table : String} {sets : List (String × Value)}
    (h : transformRow now table d row sets = .ok row') (hlen : row.length = d.columns.length) :
    row'.length = d.columns.length := by
  obtain ⟨mid, hmid, h⟩ := Result.bind_eq_ok.1 h
  cases h
  rw [stepManaged, List.length_zipWith, applySets_length hmid, hlen, Nat.min_self]

end Lengths

/-- Every stored row reads under its table's definition. -/
def CatState.Readable (s : CatState) : Prop :=
  ∀ t image, OrdMap.find t s.tables = some image →
    ∀ e ∈ image.data, ∃ row, decodePadded image.def_ e.2 = .ok row

/-- The bytes read under a definition. -/
def ReadsUnder : RowProp := fun d _ bytes => ∃ row, decodePadded d bytes = .ok row

theorem CatState.Readable.edited {s s' : CatState} (h : s.Readable) (hs : s.Edited ReadsUnder s') :
    s'.Readable := by
  intro t b hb e he
  obtain ⟨a, ha, hab⟩ := hs.back hb
  rw [hab.def_eq]
  rcases hab.rows e he with he | he
  · exact h t a ha e he
  · exact he

/-- A closure leaves readable rows. -/
theorem meets_readsUnder {s : CatState} (hs : s.WellFormed) (ho : s.InOrder) {fuel : Nat}
    {plan : Cascade} {seeds : List (String × Bytes × List Value)}
    {changes : List (String × List Value × List Value)}
    (h : planCascade s s.allTables fuel seeds changes = .ok plan) :
    plan.Meets ReadsUnder s s.allTables := by
  intro r hr def_ hdef image bytes himage hbytes
  obtain ⟨image', hof⟩ := planCascade_rewriteOf hs ho h r hr
  have hname : def_.name = (ofLex r.1).1 := by simpa using List.find?_some hdef
  rw [hname] at himage
  cases hof.found.symm.trans himage
  obtain ⟨bytes', -, hdec⟩ := hof.stored
  exact ⟨_, decodePadded_encodeRow hbytes (hof.length.trans (decodePadded_length hdec))⟩

theorem ChangedRow.reads {s : CatState} {table : String} {image : TableImage} {d : RowDelta}
    (h : ChangedRow s table image d) : decodePadded image.def_ d.bytes = .ok d.newRow := by
  obtain ⟨check, now, sets, bytes, -, hold, h⟩ := h
  obtain ⟨-, -, hmade⟩ := changeRow_eq_ok h
  exact decodePadded_encodeRow hmade.encoded
    (transformRow_length hmade.transformed (decodePadded_length hold))

/-- A statement leaves every row readable. -/
theorem Statement.readable {env : Env} {fuel : Nat} {s s' : CatState} {op : JobOp}
    (hs : s.WellFormed) (ho : s.InOrder) (hr : s.Readable) (h : Statement env fuel s op s') :
    s'.Readable := by
  cases h with
  | @insert table input rows _ h =>
    apply hr.edited (insert_edited h _)
    intro image st himage hst
    apply Result.foldlM_invariant (I := fun st => ∀ r ∈ st.rows,
      ReadsUnder image.def_ r.pkKey r.bytes) hst (fun r hr => absurd hr List.not_mem_nil)
    intro provided _ st st' hst hstage r hr
    obtain ⟨r', hr', hrows, -⟩ := stageRow_eq_ok hstage
    rw [hrows] at hr
    rcases List.mem_append.1 hr with hr | hr
    · exact hst r hr
    · rw [List.mem_singleton.1 hr]
      exact ⟨_, decodePadded_encodeRow hr'.encoded (buildRow_eq_ok hr'.built).1.length⟩
  | @change _ table image deltas referential _ _ h =>
    apply hr.edited
    apply h.edited
    · intro d hd
      exact ⟨_, (h.rows d hd).reads⟩
    · intro plan hplan
      have hplanned := h.planned
      rw [hplan] at hplanned
      exact meets_readsUnder hs ho (planReferential_eq_ok hplanned).1
  | removal _ _ h => exact hr.edited (h.edited (meets_readsUnder hs ho h.planned))
  | idle => exact hr

theorem applyCascade_inOrder {s s' : CatState} {tables : List TableDef} {plan : Cascade}
    (hs : s.InOrder) (h : applyCascade s tables plan = .ok s') : s'.InOrder := by
  obtain ⟨s₁, hdel, hrew⟩ := Result.bind_eq_ok.1 h
  have hs₁ : s₁.InOrder := by
    apply Result.foldlM_invariant (I := CatState.InOrder) hdel hs
    intro d _ s₂ s₃ hs₂ hf
    split at hf
    · cases hf
      exact hs₂
    · obtain ⟨a, b, ha, rfl, -, hb⟩ := deleteRowIndexed_rows hf
      exact hs₂.store (hb ▸ (hs₂ _ a ha).erase)
  apply Result.foldlM_invariant (I := CatState.InOrder) hrew hs₁
  intro r _ s₂ s₃ hs₂ hf
  split at hf
  · cases hf
    exact hs₂
  · obtain ⟨a, b, bytes, ha, rfl, -, -, hb⟩ := rewriteRowIndexed_rows hf
    exact hs₂.store (hb ▸ (hs₂ _ a ha).insert)

/-- A row job leaves the rows in order. -/
theorem Statement.inOrder {env : Env} {fuel : Nat} {s s' : CatState} {op : JobOp} (hs : s.InOrder)
    (h : Statement env fuel s op s') : s'.InOrder := by
  cases h with
  | @insert table input rows _ h =>
    obtain ⟨image, st, image', himage, -, himage', rfl⟩ := insert_eq_ok h
    have hsorted : OrdMap.Sorted image'.data := by
      apply Result.foldlM_invariant (I := fun b => OrdMap.Sorted b.data) himage' (hs _ _ himage)
      intro r _ b c hb hc
      rw [(applyStaged_rows hc).2]
      exact hb.insert
    split
    · exact hs.store hsorted
    · exact hs.store hsorted
  | @change _ table image deltas referential _ _ h =>
    obtain ⟨image', himage', happly⟩ := Result.bind_eq_ok.1 h.applied
    have hsorted : OrdMap.Sorted image'.data := by
      apply Result.foldlM_invariant (I := fun b => OrdMap.Sorted b.data) himage' (hs _ _ h.found)
      intro d _ b c hb hc
      rw [(applyDelta_rows hc).2]
      exact hb.insert
    cases referential with
    | none =>
      cases happly
      exact hs.store hsorted
    | some plan => exact applyCascade_inOrder (hs.store hsorted) happly
  | removal _ _ h => exact applyCascade_inOrder hs h.applied
  | idle => exact hs

theorem Altered.reads {op : JobOp} {t : String} {a b : TableImage} (h : Altered op t a b)
    {bytes : Bytes} {row : List Value} (hrow : decodePadded a.def_ bytes = .ok row) :
    ∃ row', decodePadded b.def_ bytes = .ok row' := by
  rcases h.columns with hcols | ⟨column, -, hcols, -, -⟩
  · refine ⟨row, ?_⟩
    rw [decodePadded, hcols]
    exact hrow
  · exact ⟨_, decodePadded_widen hcols hrow⟩

/-- What every job keeps of the stored rows, with the schema it keeps. -/
structure CatState.Sound (s : CatState) : Prop where
  wellFormed : s.WellFormed
  inOrder : s.InOrder
  readable : s.Readable

/-- Every job keeps the state sound. -/
theorem sound_kept {C : JobCond} : Keeps C CatState.Sound := by
  intro envs fuel s op out s' hb hC h hs
  have hwf := wellFormed_kept envs fuel s op out s' hb hC h hs.wellFormed
  cases hop : op.isDefinition with
  | false =>
    have hst := apply_statement hop hb h
    exact ⟨hwf, hst.inOrder hs.inOrder, hst.readable hs.wellFormed hs.inOrder hs.readable⟩
  | true =>
    cases apply_definition hop h with
    | create _ _ _ _ htables _ =>
      -- a new table has no rows, and the others are as they were
      have hfind : ∀ t image, OrdMap.find t s'.tables = some image →
          image.data = [] ∨ OrdMap.find t s.tables = some image := by
        intro t image himage
        rw [htables, OrdMap.find_insert] at himage
        split at himage
        · cases himage
          exact .inl rfl
        · exact .inr himage
      refine ⟨hwf, fun t image himage => ?_, fun t image himage e he => ?_⟩
      · rcases hfind t image himage with hnil | himage
        · rw [hnil]
          exact OrdMap.sorted_nil
        · exact hs.inOrder t image himage
      · rcases hfind t image himage with hnil | himage
        · rw [hnil] at he
          cases he
        · exact hs.readable t image himage e he
    | @drop t =>
      have hfind : ∀ t' image, OrdMap.find t' (OrdMap.erase t s.tables) = some image →
          OrdMap.find t' s.tables = some image := by
        intro t' image himage
        rw [OrdMap.find_erase] at himage
        split at himage
        · cases himage
        · exact himage
      exact ⟨hwf, fun t' image himage => hs.inOrder t' image (hfind t' image himage),
        fun t' image himage => hs.readable t' image (hfind t' image himage)⟩
    | @alter _ t a b ha hab =>
      refine ⟨hwf, hs.inOrder.store (hab.data ▸ hs.inOrder _ _ ha), fun t' image himage e he => ?_⟩
      rw [CatState.find_store] at himage
      split at himage
      · cases himage
        rw [hab.data] at he
        obtain ⟨row, hrow⟩ := hs.readable t a ha e he
        exact hab.reads hrow
      · exact hs.readable t' image himage e he

theorem sound_empty : CatState.empty.Sound :=
  ⟨.empty, (fun t image himage => by cases himage), (fun t image himage => by cases himage)⟩

/-- Every state of a run is sound. -/
theorem RunWhere.sound {C : JobCond} {ops : List JobOp} {s : CatState} (h : RunWhere C ops s) :
    s.Sound :=
  RunWhere.induct sound_kept sound_empty h

theorem Run.sound {ops : List JobOp} {s : CatState} (h : Run ops s) : s.Sound := h.free.sound

end Edb.Catalog
