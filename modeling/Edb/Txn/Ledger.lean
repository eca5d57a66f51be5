import Edb.BTree.Edit
import Edb.Txn.Job

/-!
# Jobs over a ledger of trees

What a job does, without pages: a `Ledger` has the trees that are current, by their roots, and
each operation of the write context takes it to the next one. A mutation retires the root it was
given and puts the new tree at a fresh one; which root that is, is up to the pager. An operation
on a root that is not current has no result: a job may not do that.

`Job.wp` is what a job ensures, for every choice of fresh roots. A `Client` is a kind of jobs
with the invariant its jobs keep; `kvClient` are the key/value jobs.
-/

namespace Edb.Txn

open Edb.BTree Edb.Lib

/-! ## Trees -/

/-- A well-formed tree, without its pages. -/
structure TreeState where
  shape : Shape.Any
  wf : shape.2.RootWF

namespace TreeState

def entries (t : TreeState) : List Entry := t.shape.2.entries

theorem sorted (t : TreeState) : OrdMap.Sorted t.entries := t.wf.pre.entries_sorted.1

/-- The empty tree. -/
def empty : TreeState where
  shape := ⟨0, Tree.leaf () []⟩
  wf := ⟨Tree.pre_leaf.mpr ⟨OrdMap.sorted_nil, fun _ he => nomatch he⟩,
    show (Tree.leaf () [] : Shape 0).size ≤ cap by decide, fun h => absurd rfl h⟩

@[simp] theorem entries_empty : empty.entries = [] := rfl

def insert (t : TreeState) (key value : Bytes) : Except BTreeError TreeState :=
  match h : Shape.insert t.shape key value with
  | .ok s => .ok ⟨s, (Shape.insert_spec t.wf h).1⟩
  | .error e => .error e

/-- The tree without `key`; none if it stays where it is, not having the key. -/
def delete (t : TreeState) (key : Bytes) : Except BTreeError (Option TreeState) :=
  match Shape.deleteRec key t.shape.2 with
  | .ok .unchanged => .ok none
  | _ =>
      match h : Shape.delete t.shape key with
      | .ok s => .ok (some ⟨s, (Shape.delete_spec t.wf h).1⟩)
      | .error e => .error e

theorem insert_ok {t t' : TreeState} {key value : Bytes} (h : t.insert key value = .ok t') :
    Shape.insert t.shape key value = .ok t'.shape := by
  unfold insert at h
  split at h
  next s hs =>
    cases h
    exact hs
  next => cases h

theorem insert_error {t : TreeState} {key value : Bytes} {e : BTreeError}
    (h : t.insert key value = .error e) : Shape.insert t.shape key value = .error e := by
  unfold insert at h
  split at h
  next => cases h
  next hs =>
    cases h
    exact hs

theorem delete_none {t : TreeState} {key : Bytes} (h : t.delete key = .ok none) :
    Shape.deleteRec key t.shape.2 = .ok .unchanged := by
  unfold delete at h
  split at h
  next hrec => exact hrec
  next =>
    split at h
    next => cases h
    next => cases h

theorem delete_some {t t' : TreeState} {key : Bytes} (h : t.delete key = .ok (some t')) :
    Shape.deleteRec key t.shape.2 ≠ .ok .unchanged ∧ Shape.delete t.shape key = .ok t'.shape := by
  unfold delete at h
  split at h
  next => cases h
  next hrec =>
    split at h
    next s hs =>
      cases h
      exact ⟨hrec, hs⟩
    next => cases h

theorem delete_error {t : TreeState} {key : Bytes} {e : BTreeError}
    (h : t.delete key = .error e) : Shape.delete t.shape key = .error e := by
  unfold delete at h
  split at h
  next => cases h
  next =>
    split at h
    next => cases h
    next hs =>
      cases h
      exact hs

theorem entries_insert {t t' : TreeState} {key value : Bytes} (h : t.insert key value = .ok t') :
    t'.entries = OrdMap.insert key value t.entries :=
  (Shape.insert_spec t.wf (insert_ok h)).2

theorem entries_delete {t t' : TreeState} {key : Bytes} (h : t.delete key = .ok (some t')) :
    t'.entries = OrdMap.erase key t.entries :=
  (Shape.delete_spec t.wf (delete_some h).2).2

/-- A tree that a delete leaves where it is does not have the key. -/
theorem erase_of_delete_none {t : TreeState} {key : Bytes} (h : t.delete key = .ok none) :
    ∀ e ∈ t.entries, e.1 ≠ key :=
  Shape.deleteRec_spec t.wf.pre t.wf.full (delete_none h) (Shape.inRange_unbounded key)

end TreeState

/-! ## Ledgers -/

/-- The current trees by their roots, and the published root. -/
structure Forest where
  root : Nat
  trees : Nat → Option TreeState

/-- The trees a job sees, with the roots it has retired and whether it has mutated any tree. -/
structure Ledger extends Forest where
  retired : List Nat
  touched : Bool

namespace Ledger

/-- A forest before a job. -/
def start (f : Forest) : Ledger := { f with retired := [], touched := false }

/-- A tree at a fresh root. -/
def add (l : Ledger) (fresh : Nat) (t : TreeState) : Ledger :=
  { l with trees := fun r => if r = fresh then some t else l.trees r, touched := true }

/-- A tree is no longer current. -/
def retire (l : Ledger) (r : Nat) : Ledger :=
  { l with
    trees := fun r' => if r' = r then none else l.trees r'
    retired := r :: l.retired
    touched := true }

/-- One operation, with the root a new tree gets; none if it is on a root that is not current. -/
def exec (fresh : Nat) (l : Ledger) : (op : CtxOp) → Option (Except BTreeError (op.Res × Ledger))
  | .root => some (.ok (l.root, l))
  | .setRoot r => some (.ok ((), { l with root := r }))
  | .lookup r key => (l.trees r).map fun t => .ok (OrdMap.find key t.entries, l)
  | .scan r lo hi =>
      (l.trees r).map fun t => .ok (t.entries.filter fun e => inBounds lo hi e.1, l)
  | .insert r key value =>
      (l.trees r).map fun t =>
        match t.insert key value with
        | .ok t' => .ok (fresh, (l.retire r).add fresh t')
        | .error e => .error e
  | .delete r key =>
      (l.trees r).map fun t =>
        match t.delete key with
        | .ok (some t') => .ok (fresh, (l.retire r).add fresh t')
        | .ok none => .ok (r, l)
        | .error e => .error e
  | .createTree => some (.ok (fresh, l.add fresh TreeState.empty))
  | .freeTree r => (l.trees r).map fun _ => .ok ((), l.retire r)

end Ledger

/-! ## What a job ensures -/

namespace Job

variable {ε α β : Type}

/-- The job only works on current trees, and whichever fresh roots it gets, it ends in `Q`. -/
def wp (Q : Except (TxnError ε) α → Ledger → Prop) : Job ε α → Ledger → Prop
  | .ret a, l => Q (.ok a) l
  | .fail e, l => Q (.error e) l
  | .call op k, l => ∀ fresh, firstDataPage ≤ fresh → l.trees fresh = none →
      match l.exec fresh op with
      | none => False
      | some (.error e) => Q (.error (.btree e)) l
      | some (.ok (r, l')) => (k r).wp Q l'

/-- The assertion between two jobs run one after the other. -/
def wpThen (f : α → Job ε β) (Q : Except (TxnError ε) β → Ledger → Prop) :
    Except (TxnError ε) α → Ledger → Prop
  | .ok a, l => (f a).wp Q l
  | .error e, l => Q (.error e) l

@[simp] theorem wpThen_ok (f : α → Job ε β) (Q : Except (TxnError ε) β → Ledger → Prop) (a : α)
    (l : Ledger) : wpThen f Q (.ok a) l = (f a).wp Q l := rfl

@[simp] theorem wpThen_error (f : α → Job ε β) (Q : Except (TxnError ε) β → Ledger → Prop)
    (e : TxnError ε) (l : Ledger) : wpThen f Q (.error e) l = Q (.error e) l := rfl

variable {Q Q' : Except (TxnError ε) α → Ledger → Prop} {l : Ledger}

@[simp] theorem wp_ret {a : α} : (Job.ret a).wp Q l ↔ Q (.ok a) l := Iff.rfl

@[simp] theorem wp_fail {e : TxnError ε} : (Job.fail e : Job ε α).wp Q l ↔ Q (.error e) l := Iff.rfl

/-- The weakest precondition of a sequence, through the first failure. -/
theorem wp_bind {x : Job ε α} {f : α → Job ε β} {Q : Except (TxnError ε) β → Ledger → Prop}
    {l : Ledger} : (x >>= f).wp Q l ↔ x.wp (wpThen f Q) l := by
  induction x generalizing l with
  | ret a => exact Iff.rfl
  | fail e => exact Iff.rfl
  | call op k ih =>
      rw [call_bind]
      unfold wp
      refine forall_congr' fun fresh => forall_congr' fun _ => forall_congr' fun _ => ?_
      split
      next => exact Iff.rfl
      next => exact Iff.rfl
      next r l' _ => exact ih r

/-- A stronger postcondition needs no more. -/
theorem wp_mono {x : Job ε α} (h : x.wp Q l) (hQ : ∀ r l', Q r l' → Q' r l') : x.wp Q' l := by
  induction x generalizing l with
  | ret a => exact hQ _ _ h
  | fail e => exact hQ _ _ h
  | call op k ih =>
      intro fresh hlo hfresh
      have hstep := h fresh hlo hfresh
      split at hstep
      next => exact hstep
      next => exact hQ _ _ hstep
      next r l' _ => exact ih r hstep

/-! ### The operations -/

section Ops

variable {r : Nat} {t : TreeState} {key value : Bytes} {lo hi : Option Bytes}

theorem wp_root {Q : Except (TxnError ε) Nat → Ledger → Prop} (h : Q (.ok l.root) l) :
    (root : Job ε Nat).wp Q l := fun _ _ _ => h

theorem wp_setRoot {Q : Except (TxnError ε) Unit → Ledger → Prop}
    (h : Q (.ok ()) { l with root := r }) : (setRoot r : Job ε Unit).wp Q l := fun _ _ _ => h

theorem wp_lookup {Q : Except (TxnError ε) (Option Bytes) → Ledger → Prop}
    (ht : l.trees r = some t) (h : Q (.ok (OrdMap.find key t.entries)) l) :
    (lookup r key : Job ε _).wp Q l := by
  intro fresh _ _
  simp only [Ledger.exec, ht, Option.map_some]
  exact h

theorem wp_scan {Q : Except (TxnError ε) (List Entry) → Ledger → Prop}
    (ht : l.trees r = some t)
    (h : Q (.ok (t.entries.filter fun e => inBounds lo hi e.1)) l) :
    (scan r lo hi : Job ε _).wp Q l := by
  intro fresh _ _
  simp only [Ledger.exec, ht, Option.map_some]
  exact h

/-- An insert adds the edited tree under a fresh root, or fails as the tree does. -/
theorem wp_insert {Q : Except (TxnError ε) Nat → Ledger → Prop} (ht : l.trees r = some t)
    (hok : ∀ fresh t', firstDataPage ≤ fresh → l.trees fresh = none →
      t.insert key value = .ok t' → Q (.ok fresh) ((l.retire r).add fresh t'))
    (herr : ∀ e, t.insert key value = .error e → Q (.error (.btree e)) l) :
    (insert r key value : Job ε _).wp Q l := by
  intro fresh hlo hfresh
  simp only [Ledger.exec, ht, Option.map_some]
  cases hins : t.insert key value with
  | ok t' => exact hok fresh t' hlo hfresh hins
  | error e => exact herr e hins

/-- A delete adds the edited tree, keeps the tree without the key, or fails as the tree does. -/
theorem wp_delete {Q : Except (TxnError ε) Nat → Ledger → Prop} (ht : l.trees r = some t)
    (hok : ∀ fresh t', firstDataPage ≤ fresh → l.trees fresh = none →
      t.delete key = .ok (some t') → Q (.ok fresh) ((l.retire r).add fresh t'))
    (hkeep : t.delete key = .ok none → Q (.ok r) l)
    (herr : ∀ e, t.delete key = .error e → Q (.error (.btree e)) l) :
    (delete r key : Job ε _).wp Q l := by
  intro fresh hlo hfresh
  simp only [Ledger.exec, ht, Option.map_some]
  cases hdel : t.delete key with
  | ok o =>
      cases o with
      | some t' => exact hok fresh t' hlo hfresh hdel
      | none => exact hkeep hdel
  | error e => exact herr e hdel

theorem wp_createTree {Q : Except (TxnError ε) Nat → Ledger → Prop}
    (h : ∀ fresh, firstDataPage ≤ fresh → l.trees fresh = none →
      Q (.ok fresh) (l.add fresh TreeState.empty)) : (createTree : Job ε Nat).wp Q l :=
  fun fresh hlo hfresh => h fresh hlo hfresh

theorem wp_freeTree {Q : Except (TxnError ε) Unit → Ledger → Prop} (ht : l.trees r = some t)
    (h : Q (.ok ()) (l.retire r)) : (freeTree r : Job ε Unit).wp Q l := by
  intro fresh _ _
  simp only [Ledger.exec, ht, Option.map_some]
  exact h

end Ops

end Job

/-! ## Clients -/

/-- The current trees are the published one and those its entries name, each once. -/
structure Forest.Named (name : Entry → Option Nat) (f : Forest) : Prop where
  tree : ∃ t, f.trees f.root = some t ∧ (f.root :: t.entries.filterMap name).Nodup ∧
    ∀ r, f.trees r ≠ none ↔ r ∈ f.root :: t.entries.filterMap name

/-- A forest of one tree. -/
def Forest.single (r : Nat) (t : TreeState) : Forest where
  root := r
  trees := fun r' => if r' = r then some t else none

/-- The jobs of one kind of database, with the invariant they keep between them. -/
structure Client where
  Reject : Type
  [categorized : Categorized Reject]
  Out : Type
  /-- What a submitter may ask for. -/
  Request : Type
  apply : Request → Job Reject Out
  /-- The tree an entry of the published tree names. -/
  name : Entry → Option Nat
  Inv : Forest → Prop
  created : ∀ r t, t.entries = [] → Inv (Forest.single r t)
  named : ∀ {f}, Inv f → f.Named name
  /-- A job that succeeds keeps the invariant, and either leaves everything as it was or retires
  the published tree. -/
  keeps : ∀ {f}, Inv f → ∀ request, (apply request).wp (fun r l => ∀ out, r = .ok out →
    Inv l.toForest ∧ (f.root ∈ l.retired ∨ (l.root = f.root ∧ l.touched = false)))
    (Ledger.start f)

attribute [instance] Client.categorized

/-! ## The key/value jobs -/

namespace OpsJob

/-- The tree of the key/value store is at `r`, the published root being that of `f`. -/
structure At (f : Forest) (r : Nat) (l : Ledger) : Prop where
  trees : ∃ t, l.trees = (Forest.single r t).trees
  root : l.root = f.root
  moved : f.root ∈ l.retired ∨ (r = f.root ∧ l.touched = false)

theorem At.tree {f : Forest} {r : Nat} {l : Ledger} (h : At f r l) : ∃ t, l.trees r = some t := by
  obtain ⟨t, ht⟩ := h.trees
  exact ⟨t, by rw [ht]; exact if_pos rfl⟩

/-- A mutation takes the tree to the fresh root. -/
theorem At.replace {f : Forest} {r fresh : Nat} {l : Ledger} (h : At f r l) (t : TreeState) :
    At f fresh ((l.retire r).add fresh t) := by
  obtain ⟨t₀, ht₀⟩ := h.trees
  refine ⟨⟨t, ?_⟩, h.root, ?_⟩
  · funext r'
    change (if r' = fresh then some t else if r' = r then none else l.trees r') = _
    rw [ht₀]
    unfold Forest.single
    by_cases h₁ : r' = fresh <;> by_cases h₂ : r' = r <;> simp [h₁, h₂]
  · rcases h.moved with hm | ⟨rfl, -⟩
    · exact .inl (List.mem_cons_of_mem _ hm)
    · exact .inl (List.mem_cons_self ..)

/-- One edit of a tree leaves every other tree of the forest as it is. -/
theorem wp_applyOp {f : Forest} {r : Nat} {l : Ledger} (h : At f r l) (op : Op) :
    (applyOp r op).wp (fun o l' => ∀ r', o = .ok r' → At f r' l') l := by
  obtain ⟨t, ht⟩ := h.tree
  cases op with
  | put key value =>
      refine Job.wp_insert ht ?_ fun e _ r' hr => nomatch hr
      rintro fresh t' _ _ _ r' ⟨⟩
      exact h.replace t'
  | delete key =>
      refine Job.wp_delete ht ?_ ?_ fun e _ r' hr => nomatch hr
      · rintro fresh t' _ _ _ r' ⟨⟩
        exact h.replace t'
      · rintro _ r' ⟨⟩
        exact h

/-- So do edits one after another. -/
theorem wp_foldlM {f : Forest} (ops : List Op) {r : Nat} {l : Ledger} (h : At f r l) :
    (ops.foldlM applyOp r).wp (fun o l' => ∀ r', o = .ok r' → At f r' l') l := by
  induction ops generalizing r l with
  | nil =>
      rintro r' ⟨⟩
      exact h
  | cons op ops ih =>
      rw [List.foldlM_cons, Job.wp_bind]
      refine Job.wp_mono (wp_applyOp h op) ?_
      rintro (e | r') l' hr
      · exact fun _ hr' => nomatch hr'
      · exact ih (hr r' rfl)

end OpsJob

/-- The key/value database: one tree, and no others. -/
def kvClient : Client where
  Reject := Empty
  Out := Unit
  Request := List Op
  apply := OpsJob.apply
  name := fun _ => none
  Inv := fun f => ∃ t, f = Forest.single f.root t
  created := fun _ t _ => ⟨t, rfl⟩
  named := by
    rintro f ⟨t, ht⟩
    refine ⟨t, by rw [ht]; exact if_pos rfl, by simp, fun r => ?_⟩
    rw [ht]
    by_cases h : r = f.root <;> simp [Forest.single, h]
  keeps := by
    rintro f ⟨t, ht⟩ ops
    unfold OpsJob.apply
    rw [Job.wp_bind]
    cases hcheck : (OpsJob.validate ops).mapError TxnError.btree with
    | error e => exact fun _ h => nomatch h
    | ok u =>
        have hat : OpsJob.At f f.root (Ledger.start f) :=
          ⟨⟨t, by rw [ht]; rfl⟩, rfl, .inr ⟨rfl, rfl⟩⟩
        rw [Job.ofExcept, Job.wp_ret, Job.wpThen_ok, Job.wp_bind]
        refine Job.wp_root ?_
        rw [Job.wpThen_ok, Job.wp_bind]
        refine Job.wp_mono (OpsJob.wp_foldlM ops hat) ?_
        rintro (e | r) l hr
        · exact fun _ h => nomatch h
        · obtain ⟨⟨t', ht'⟩, hroot, hmoved⟩ := hr r rfl
          refine Job.wp_setRoot fun _ _ => ⟨⟨t', ?_⟩, ?_⟩
          · exact congrArg (Forest.mk r) ht'
          · exact hmoved

end Edb.Txn
