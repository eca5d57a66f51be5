import Edb.BTree.Refinement
import Edb.Txn.Ledger
import Edb.Txn.Writer

/-!
# The trees of a ledger on pages

`Holding p ts trees`: the pager holds the trees `ts` on pages of their own, and they are the
current trees of a ledger. The operations of the tree layer move a holding as `Ledger.exec` moves
the ledger (`Running`), and what they return and supersede accounts for every page.

A version is what its root reaches: the pages of the published tree and of the trees its entries
name (`VersionPage`), and the bindings on them (`contents`).
-/

namespace Edb.Txn

open Edb.BTree Edb.Lib

/-- The pages of some trees. -/
def pagesOf (ts : List PageTree) : List Nat := ts.flatMap PageTree.pages

@[simp] theorem pagesOf_nil : pagesOf [] = [] := rfl

@[simp] theorem pagesOf_cons (t : PageTree) (ts : List PageTree) :
    pagesOf (t :: ts) = t.pages ++ pagesOf ts := rfl

@[simp] theorem pagesOf_append (ts ts' : List PageTree) :
    pagesOf (ts ++ ts') = pagesOf ts ++ pagesOf ts' := List.flatMap_append

theorem mem_pagesOf {ts : List PageTree} {id : Nat} : id ∈ pagesOf ts ↔ ∃ t ∈ ts, id ∈ t.pages :=
  List.mem_flatMap

theorem root_mem_pages (t : PageTree) : t.root ∈ t.pages := by
  unfold PageTree.pages PageTree.root
  rw [BTree.Tree.labels_eq]
  exact List.mem_cons_self ..

/-! ## Holding -/

/-- The pager holds the trees, on distinct pages, and they are the current ones. -/
structure Holding (p : Pager Node) (ts : List PageTree) (trees : Nat → Option TreeState) :
    Prop where
  held : ∀ t ∈ ts, Holds p t
  nodup : (pagesOf ts).Nodup
  state : ∀ t ∈ ts, ∃ st, trees t.root = some st ∧ st.shape = t.shape
  all : ∀ r st, trees r = some st → ∃ t ∈ ts, t.root = r

namespace Holding

variable {p p' : Pager Node} {ts l₁ l₂ : List PageTree} {trees : Nat → Option TreeState}
variable {t t' : PageTree} {st : TreeState} {new fr : List Nat} {r : Nat}

theorem owned (h : Holding p ts trees) {id : Nat} (hid : id ∈ pagesOf ts) : p.Owned id := by
  obtain ⟨t, ht, hmem⟩ := mem_pagesOf.mp hid
  exact (h.held t ht).owned id hmem

/-- The trees stay held while their pages read the same and stay owned. -/
theorem frame (h : Holding p ts trees) (hview : ∀ id ∈ pagesOf ts, p'.view id = p.view id)
    (howned : ∀ id ∈ pagesOf ts, p'.Owned id) : Holding p' ts trees := by
  refine ⟨fun t ht => ?_, h.nodup, h.state, h.all⟩
  exact (h.held t ht).frame (fun id hid => hview id (mem_pagesOf.mpr ⟨t, ht, hid⟩))
    fun id hid => howned id (mem_pagesOf.mpr ⟨t, ht, hid⟩)

theorem grows (h : Holding p ts trees) (hg : Pager.Grows p p' new) : Holding p' ts trees :=
  h.frame (fun _ hid => hg.view _ (h.owned hid)) fun _ hid => hg.owned_mono (h.owned hid)

/-- New pages are none of those the trees are on. -/
theorem nodup_new (hp : p.Ok) (h : Holding p ts trees) (hg : Pager.Grows p p' new) :
    (pagesOf ts ++ new).Nodup := by
  refine List.nodup_append.mpr ⟨h.nodup, (List.nodup_append.mp (hg.nodup hp)).2.1, ?_⟩
  rintro a ha b hb rfl
  exact hg.fresh hb (h.owned ha)

/-- The tree at a current root. -/
theorem tree (h : Holding p ts trees) (hr : trees r = some st) :
    ∃ l₁ t l₂, ts = l₁ ++ t :: l₂ ∧ t.root = r ∧ st.shape = t.shape := by
  obtain ⟨t, ht, rfl⟩ := h.all r st hr
  obtain ⟨l₁, l₂, rfl⟩ := List.append_of_mem ht
  obtain ⟨st', hst', hshape⟩ := h.state t ht
  rw [hr] at hst'
  cases hst'
  exact ⟨l₁, t, l₂, rfl, rfl, hshape⟩

/-- A tree is given up. -/
theorem remove (h : Holding p (l₁ ++ t :: l₂) trees) :
    Holding p (l₁ ++ l₂) fun r => if r = t.root then none else trees r := by
  have hsub : ∀ {t'}, t' ∈ l₁ ++ l₂ → t' ∈ l₁ ++ t :: l₂ := fun ht' =>
    ((List.sublist_cons_self t l₂).append_left l₁).subset ht'
  have hperm : (pagesOf (l₁ ++ t :: l₂)).Perm (t.pages ++ pagesOf (l₁ ++ l₂)) := by
    rw [List.perm_iff_count]
    intro a
    simp only [pagesOf_append, pagesOf_cons, List.count_append]
    omega
  have hnodup := List.nodup_append.mp (hperm.nodup_iff.mp h.nodup)
  have hne : ∀ t' ∈ l₁ ++ l₂, t'.root ≠ t.root := fun t' ht' heq =>
    hnodup.2.2 t.root (root_mem_pages t) t'.root (mem_pagesOf.mpr ⟨t', ht', root_mem_pages t'⟩)
      heq.symm
  refine ⟨fun t' ht' => h.held t' (hsub ht'), hnodup.2.1, fun t' ht' => ?_, fun r st hr => ?_⟩
  · obtain ⟨st, hst, hshape⟩ := h.state t' (hsub ht')
    exact ⟨st, by rw [if_neg (hne t' ht')]; exact hst, hshape⟩
  · split at hr
    next => cases hr
    next hrt =>
      obtain ⟨t', ht', rfl⟩ := h.all r st hr
      refine ⟨t', ?_, rfl⟩
      simp only [List.mem_append, List.mem_cons] at ht' ⊢
      rcases ht' with ht' | rfl | ht'
      · exact .inl ht'
      · exact absurd rfl hrt
      · exact .inr ht'

/-- A tree on pages of its own joins. -/
theorem add (h : Holding p ts trees) (ht : Holds p t) (hshape : st.shape = t.shape)
    (hnew : ∀ id ∈ t.pages, id ∉ pagesOf ts) : trees t.root = none ∧
      Holding p (t :: ts) fun r => if r = t.root then some st else trees r := by
  have hne : ∀ t' ∈ ts, t'.root ≠ t.root := fun t' ht' heq =>
    hnew t.root (root_mem_pages t) (mem_pagesOf.mpr ⟨t', ht', heq ▸ root_mem_pages t'⟩)
  refine ⟨?_, ?_, ?_, fun t' ht' => ?_, fun r st' hr => ?_⟩
  · cases hr : trees t.root with
    | none => rfl
    | some st' =>
        obtain ⟨t', ht', hroot⟩ := h.all _ st' hr
        exact absurd hroot (hne t' ht')
  · intro t' ht'
    rcases List.mem_cons.mp ht' with rfl | ht'
    · exact ht
    · exact h.held t' ht'
  · refine List.nodup_append.mpr ⟨ht.nodup, h.nodup, ?_⟩
    rintro a ha b hb rfl
    exact hnew a ha hb
  · rcases List.mem_cons.mp ht' with rfl | ht'
    · exact ⟨st, if_pos rfl, hshape⟩
    · obtain ⟨st', hst', hs⟩ := h.state t' ht'
      exact ⟨st', by rw [if_neg (hne t' ht')]; exact hst', hs⟩
  · split at hr
    next heq => exact ⟨t, List.mem_cons_self .., heq.symm⟩
    next =>
      obtain ⟨t', ht', rfl⟩ := h.all r st' hr
      exact ⟨t', List.mem_cons_of_mem _ ht', rfl⟩

/-- A tree is replaced by the one an operation built from it, whose root is a fresh one. -/
theorem replace (hp : p.Ok) (h : Holding p (l₁ ++ t :: l₂) trees) (hg : Pager.Grows p p' new)
    (ht' : Holds p' t') (hshape : st.shape = t'.shape)
    (hperm : (t'.pages ++ fr).Perm (t.pages ++ new)) (hfr : (t'.pages ++ fr).Nodup)
    (hroot : t.root ∈ fr) : trees t'.root = none ∧
      Holding p' (t' :: (l₁ ++ l₂)) fun r =>
        if r = t'.root then some st else if r = t.root then none else trees r := by
  have hnodup := h.nodup_new hp hg
  have hne : t'.root ≠ t.root := fun heq =>
    (List.nodup_append.mp hfr).2.2 t'.root (root_mem_pages t') t.root hroot heq
  obtain ⟨hnone, hadd⟩ := (h.remove.grows hg).add ht' hshape fun id hid hmem => by
    have hcount := List.nodup_iff_count.mp hnodup id
    have h₁ : 0 < (t.pages ++ new).count id :=
      List.count_pos_iff.mpr (hperm.subset (List.mem_append_left _ hid))
    have h₂ : 0 < (pagesOf (l₁ ++ l₂)).count id := List.count_pos_iff.mpr hmem
    simp only [pagesOf_append, pagesOf_cons, List.count_append] at hcount h₁ h₂
    omega
  exact ⟨by rwa [if_neg hne] at hnone, hadd⟩

end Holding

/-! ## A job on pages -/

/-- The outcome of a tree operation, and the pager it leaves. -/
def TreeOp.outcome (op : TreeOp) (p : Pager Node) : Except BTreeError op.Res × Pager Node :=
  match op.run p with
  | .ok r p' => (.ok r, p')
  | .error e p' => (.error e, p')

theorem TreeOp.outcome_ok (op : TreeOp) {p p' : Pager Node} {r : op.Res}
    (h : op.run p = .ok r p') : op.outcome p = (.ok r, p') := by
  unfold outcome
  rw [h]

theorem TreeOp.outcome_error (op : TreeOp) {p p' : Pager Node} {e : BTreeError}
    (h : op.run p = .error e p') : op.outcome p = (.error e, p') := by
  unfold outcome
  rw [h]

/-- An operation of the write context, run without interruption. -/
def CtxOp.outcome (ctx : Ctx) :
    (op : CtxOp) → Pager Node → (Except BTreeError op.Res × Ctx) × Pager Node
  | .root, p => ((.ok ctx.root, ctx), p)
  | .setRoot r, p => ((.ok (), { ctx with root := r }), p)
  | .lookup r key, p =>
      ((((TreeOp.lookup r key).outcome p).1, ctx), ((TreeOp.lookup r key).outcome p).2)
  | .scan r lo hi, p =>
      ((((TreeOp.range r lo hi).outcome p).1, ctx), ((TreeOp.range r lo hi).outcome p).2)
  | .insert r key value, p =>
      (ctx.supersede ((TreeOp.insert r key value).outcome p).1,
        ((TreeOp.insert r key value).outcome p).2)
  | .delete r key, p =>
      (ctx.supersede ((TreeOp.delete r key).outcome p).1, ((TreeOp.delete r key).outcome p).2)
  | .createTree, p => (((TreeOp.create.outcome p).1, ctx), (TreeOp.create.outcome p).2)
  | .freeTree r, p =>
      (ctx.retire ((TreeOp.pages r).outcome p).1, ((TreeOp.pages r).outcome p).2)

section Running

variable (p₀ : Pager Node) (f : Forest) (ts₀ : List PageTree)

/-- A job begun at `p₀`, where the forest `f` was on the trees `ts₀`, has come to the ledger `l`:
the pager holds the trees `ts`, the pages `new` were handed out and the pages `fr` superseded. -/
structure Running (l : Ledger) (p : Pager Node) (ts : List PageTree) (new fr : List Nat) :
    Prop where
  grows : Pager.Grows p₀ p new
  holding : Holding p ts l.trees
  pages : (pagesOf ts ++ fr).Perm (pagesOf ts₀ ++ new)
  retired : ∀ r ∈ l.retired, r ∈ fr
  untouched : l.touched = false → ts = ts₀ ∧ new = [] ∧ fr = [] ∧ l.trees = f.trees

variable {p₀ f ts₀}
variable {l : Ledger} {p p' : Pager Node} {ts : List PageTree} {new fr : List Nat} {r : Nat}
variable {st : TreeState}

theorem running_start (hp : p₀.Ok) (h : Holding p₀ ts₀ f.trees) :
    Running p₀ f ts₀ (.start f) p₀ ts₀ [] [] :=
  ⟨.refl hp, h, .refl _, (fun _ hr => by cases hr), fun _ => ⟨rfl, rfl, rfl, rfl⟩⟩

namespace Running

theorem ok (h : Running p₀ f ts₀ l p ts new fr) : p.Ok := h.grows.ok

theorem still (h : Running p₀ f ts₀ l p ts new fr) (hg : Pager.Grows p p' []) :
    Running p₀ f ts₀ l p' ts new fr := by
  refine ⟨?_, h.holding.grows hg, h.pages, h.retired, h.untouched⟩
  have := h.grows.trans hg
  rwa [List.append_nil] at this

theorem reads (h : Running p₀ f ts₀ l p ts new fr) (hr : Pager.Reads p p') :
    Running p₀ f ts₀ l p' ts new fr := h.still hr.grows

/-- A tree replaced by the one an operation built from it. -/
theorem replace (h : Running p₀ f ts₀ l p ts new fr) (hr : l.trees r = some st)
    {t : PageTree} {l₁ l₂ : List PageTree} (hts : ts = l₁ ++ t :: l₂) (hroot : t.root = r)
    {new' : List Nat} (hg : Pager.Grows p p' new') {e : Edit} {keeps : Prop} (hk : ¬ keeps)
    {st' : TreeState} (hheld : EditHeld keeps p' t e st'.shape new') :
    firstDataPage ≤ e.newRoot ∧ l.trees e.newRoot = none ∧ ∃ ts' new' fr',
      Running p₀ f ts₀ ((l.retire r).add e.newRoot st') p' ts' new' fr' ∧
        fr' = fr ++ e.freed := by
  subst hts hroot
  have ht : Holds p t := h.holding.held t (by simp)
  obtain ⟨t', hroot', hshape, hholds, hperm, hnodup⟩ := hheld.holds h.ok ht hg st'.wf
  have hfreed : t.root ∈ e.freed := by
    rcases hheld.root with ⟨hkeeps, -⟩ | ⟨-, hmem⟩
    · exact absurd hkeeps hk
    · exact hmem
  obtain ⟨hnone, hholding⟩ := h.holding.replace h.ok hg hholds hshape.symm hperm hnodup hfreed
  rw [hroot'] at hnone hholding
  refine ⟨?_, hnone, t' :: (l₁ ++ l₂), new ++ new', fr ++ e.freed,
    ⟨h.grows.trans hg, hholding, ?_, ?_, fun htouched => by cases htouched⟩, rfl⟩
  · rw [← hroot']
    exact (hholds.owned _ (root_mem_pages t')).1
  · have h₁ := h.pages
    rw [List.perm_iff_count] at h₁ hperm ⊢
    intro a
    have e₁ := h₁ a
    have e₂ := hperm a
    simp only [pagesOf_append, pagesOf_cons, List.count_append] at e₁ e₂ ⊢
    omega
  · intro r hr
    rcases List.mem_cons.mp hr with rfl | hr
    · exact List.mem_append_right _ hfreed
    · exact List.mem_append_left _ (h.retired r hr)

end Running

/-- What an operation of the write context does, given what it does to the ledger: the answer is
the same, and on success the job runs on. -/
def Follows (p₀ : Pager Node) (f : Forest) (ts₀ : List PageTree) (freed : List Nat) {α : Type} :
    Option (Except BTreeError (α × Ledger)) → (Except BTreeError α × Ctx) × Pager Node → Prop
  | none, _ => True
  | some (.ok (a, l)), ((r, ctx), p) => r = .ok a ∧ ctx.root = l.root ∧
      ∃ ts new fr, Running p₀ f ts₀ l p ts new fr ∧ ctx.freed = freed ++ fr
  | some (.error e), ((r, ctx), p) => r = .error e ∧
      ∃ new fr, Pager.Grows p₀ p new ∧ ctx.freed = freed ++ fr

variable {freed : List Nat} {ctx : Ctx}

/-- A read answers for the tree, and the job runs on. -/
theorem Running.read (h : Running p₀ f ts₀ l p ts new fr) (hroot : ctx.root = l.root)
    (hfreed : ctx.freed = freed ++ fr) (op : TreeOp) {a : op.Res}
    (hread : ∃ p', op.run p = .ok a p' ∧ Pager.Reads p p') :
    Follows p₀ f ts₀ freed (some (.ok (a, l)))
      (((op.outcome p).1, ctx), (op.outcome p).2) := by
  obtain ⟨p', hrun, hreads⟩ := hread
  rw [TreeOp.outcome_ok op hrun]
  exact ⟨rfl, hroot, ts, new, fr, h.reads hreads, hfreed⟩

/-- The next page of the file is the root of no tree. -/
theorem Running.spare (h : Running p₀ f ts₀ l p ts new fr) :
    firstDataPage ≤ p.metadata.pageCount ∧ l.trees p.metadata.pageCount = none := by
  refine ⟨h.ok.count, ?_⟩
  cases hr : l.trees p.metadata.pageCount with
  | none => rfl
  | some st =>
      obtain ⟨t, ht, hroot⟩ := h.holding.all _ st hr
      have := ((h.holding.held t ht).owned _ (root_mem_pages t)).2.1
      omega

theorem entries_of_shape {st : TreeState} {t : PageTree} (h : st.shape = t.shape) :
    st.entries = t.entries := by
  rw [TreeState.entries, h, PageTree.entries_shape t]

section Edits

variable (h : Running p₀ f ts₀ l p ts new fr) (hroot : ctx.root = l.root)
variable (hfreed : ctx.freed = freed ++ fr) (hr : l.trees r = some st)
include h hroot hfreed hr

/-- An insert of the pages follows the insert of the ledger. -/
theorem Running.insert (key value : Bytes) : ∃ fresh, firstDataPage ≤ fresh ∧
    l.trees fresh = none ∧ Follows p₀ f ts₀ freed (l.exec fresh (.insert r key value))
      (CtxOp.outcome ctx (.insert r key value) p) := by
  obtain ⟨l₁, t, l₂, hts, hroot', hshape⟩ := h.holding.tree hr
  have ht : Holds p t := h.holding.held t (by simp [hts])
  have hsim := insert_sim key value h.ok ht
  rw [hroot', ← hshape] at hsim
  unfold Simulates at hsim
  cases hins : st.insert key value with
  | ok st' =>
      rw [TreeState.insert_ok hins] at hsim
      obtain ⟨e, p', new', hrun, hg, hheld⟩ := hsim
      obtain ⟨hlo, hnone, ts', new'', fr', hrunning, hfr⟩ := h.replace hr hts hroot' hg id hheld
      refine ⟨e.newRoot, hlo, hnone, ?_⟩
      simp only [Ledger.exec, hr, Option.map_some, hins]
      rw [CtxOp.outcome, TreeOp.outcome_ok (.insert r key value) hrun]
      exact ⟨rfl, hroot, ts', new'', fr', hrunning, by simp only [hfr, hfreed, List.append_assoc]⟩
  | error e =>
      rw [TreeState.insert_error hins] at hsim
      obtain ⟨p', new', hrun, hg⟩ := hsim
      refine ⟨_, h.spare.1, h.spare.2, ?_⟩
      simp only [Ledger.exec, hr, Option.map_some, hins]
      rw [CtxOp.outcome, TreeOp.outcome_error (.insert r key value) hrun]
      exact ⟨rfl, new ++ new', fr, h.grows.trans hg, hfreed⟩

/-- A delete of the pages follows the delete of the ledger. -/
theorem Running.delete (key : Bytes) : ∃ fresh, firstDataPage ≤ fresh ∧
    l.trees fresh = none ∧ Follows p₀ f ts₀ freed (l.exec fresh (.delete r key))
      (CtxOp.outcome ctx (.delete r key) p) := by
  obtain ⟨l₁, t, l₂, hts, hroot', hshape⟩ := h.holding.tree hr
  have ht : Holds p t := h.holding.held t (by simp [hts])
  have hsim := delete_sim key h.ok ht
  rw [hroot', ← hshape] at hsim
  unfold Simulates at hsim
  cases hdel : st.delete key with
  | ok o =>
      cases o with
      | some st' =>
          obtain ⟨hmoves, hout⟩ := TreeState.delete_some hdel
          rw [hshape] at hmoves
          rw [hout] at hsim
          obtain ⟨e, p', new', hrun, hg, hheld⟩ := hsim
          obtain ⟨hlo, hnone, ts', new'', fr', hrunning, hfr⟩ :=
            h.replace hr hts hroot' hg hmoves hheld
          refine ⟨e.newRoot, hlo, hnone, ?_⟩
          simp only [Ledger.exec, hr, Option.map_some, hdel]
          rw [CtxOp.outcome, TreeOp.outcome_ok (.delete r key) hrun]
          exact ⟨rfl, hroot, ts', new'', fr', hrunning, by
            simp only [hfr, hfreed, List.append_assoc]⟩
      | none =>
          -- the tree stays where it is
          have hkeeps := TreeState.delete_none hdel
          have hout : Shape.delete st.shape key = .ok st.shape := by
            unfold Shape.delete
            rw [hkeeps]
            rfl
          rw [hshape] at hkeeps
          rw [hout] at hsim
          obtain ⟨e, p', new', hrun, hg, hheld⟩ := hsim
          rcases hheld.root with ⟨-, rfl, rfl⟩ | ⟨hmoves, -⟩
          · refine ⟨_, h.spare.1, h.spare.2, ?_⟩
            simp only [Ledger.exec, hr, Option.map_some, hdel]
            rw [CtxOp.outcome, TreeOp.outcome_ok (.delete r key) hrun]
            refine ⟨congrArg _ hroot', hroot, ts, new, fr, h.still hg, ?_⟩
            simp only [hfreed, List.append_nil]
          · exact absurd hkeeps hmoves
  | error e =>
      rw [TreeState.delete_error hdel] at hsim
      obtain ⟨p', new', hrun, hg⟩ := hsim
      refine ⟨_, h.spare.1, h.spare.2, ?_⟩
      simp only [Ledger.exec, hr, Option.map_some, hdel]
      rw [CtxOp.outcome, TreeOp.outcome_error (.delete r key) hrun]
      exact ⟨rfl, new ++ new', fr, h.grows.trans hg, hfreed⟩

/-- Freeing a tree page by page follows its retirement in the ledger. -/
theorem Running.freeTree : ∃ fresh, firstDataPage ≤ fresh ∧
    l.trees fresh = none ∧ Follows p₀ f ts₀ freed (l.exec fresh (.freeTree r))
      (CtxOp.outcome ctx (.freeTree r) p) := by
  obtain ⟨l₁, t, l₂, rfl, rfl, hshape⟩ := h.holding.tree hr
  obtain ⟨pages, p', hrun, hpages, hreads⟩ := pages_spec h.ok (h.holding.held t (by simp))
  refine ⟨_, h.spare.1, h.spare.2, ?_⟩
  have hreads' := h.reads hreads
  simp only [Ledger.exec, hr, Option.map_some]
  rw [CtxOp.outcome, TreeOp.outcome_ok (.pages t.root) hrun]
  refine ⟨rfl, hroot, l₁ ++ l₂, new, fr ++ pages, ⟨hreads'.grows, hreads'.holding.remove, ?_, ?_,
    fun htouched => by cases htouched⟩, by simp only [hfreed, List.append_assoc]⟩
  · have h₁ := h.pages
    rw [List.perm_iff_count] at h₁ hpages ⊢
    intro a
    have e₁ := h₁ a
    have e₂ := hpages a
    simp only [pagesOf_append, pagesOf_cons, List.count_append] at e₁ e₂ ⊢
    omega
  · intro r hr
    rcases List.mem_cons.mp hr with rfl | hr
    · exact List.mem_append_right _ (hpages.symm.subset (root_mem_pages t))
    · exact List.mem_append_left _ (h.retired r hr)

end Edits

/-- Creating a tree follows its addition to the ledger. -/
theorem Running.createTree (h : Running p₀ f ts₀ l p ts new fr) (hroot : ctx.root = l.root)
    (hfreed : ctx.freed = freed ++ fr) : ∃ fresh, firstDataPage ≤ fresh ∧
      l.trees fresh = none ∧ Follows p₀ f ts₀ freed (l.exec fresh .createTree)
        (CtxOp.outcome ctx .createTree p) := by
  obtain ⟨root, p', hrun, hg, hholds⟩ := create_spec h.ok
  obtain ⟨hnone, hadd⟩ := (h.holding.grows hg).add hholds
    (show TreeState.empty.shape = PageTree.shape ⟨0, BTree.Tree.leaf root []⟩ from rfl)
    fun id hid hmem => by
      rw [List.mem_singleton.mp hid] at hmem
      exact hg.fresh (List.mem_singleton.mpr rfl) (h.holding.owned hmem)
  refine ⟨root, (hholds.owned _ (root_mem_pages _)).1, hnone, ?_⟩
  rw [CtxOp.outcome, TreeOp.outcome_ok .create hrun]
  refine ⟨rfl, hroot, _, new ++ [root], fr, ⟨h.grows.trans hg, hadd, ?_, h.retired,
    fun htouched => by cases htouched⟩, hfreed⟩
  have h₁ := h.pages
  rw [List.perm_iff_count] at h₁ ⊢
  intro a
  have e₁ := h₁ a
  have e₂ : (PageTree.pages ⟨0, BTree.Tree.leaf root []⟩).count a = [root].count a := rfl
  simp only [pagesOf_cons, List.count_append] at e₁ ⊢
  omega

/-- Each operation of the write context follows the ledger, for some fresh root. -/
theorem Running.outcome (h : Running p₀ f ts₀ l p ts new fr) (hroot : ctx.root = l.root)
    (hfreed : ctx.freed = freed ++ fr) (op : CtxOp) : ∃ fresh, firstDataPage ≤ fresh ∧
      l.trees fresh = none ∧ Follows p₀ f ts₀ freed (l.exec fresh op) (op.outcome ctx p) := by
  -- an operation on a root that is not current is not followed any further
  have hstray : ∀ {r}, l.trees r = none →
      ∀ {α : Type} (g : TreeState → Except BTreeError (α × Ledger))
      (out : (Except BTreeError α × Ctx) × Pager Node),
      Follows p₀ f ts₀ freed ((l.trees r).map g) out := by
    intro r hr α g out
    rw [hr]
    exact trivial
  cases op with
  | root => exact ⟨_, h.spare.1, h.spare.2, congrArg _ hroot, hroot, ts, new, fr, h, hfreed⟩
  | setRoot r =>
      refine ⟨_, h.spare.1, h.spare.2, rfl, rfl, ts, new, fr, ?_, hfreed⟩
      exact ⟨h.grows, h.holding, h.pages, h.retired, h.untouched⟩
  | lookup r key =>
      refine ⟨_, h.spare.1, h.spare.2, ?_⟩
      cases hr : l.trees r with
      | none => exact hstray hr _ _
      | some st =>
          obtain ⟨l₁, t, l₂, rfl, rfl, hshape⟩ := h.holding.tree hr
          simp only [Ledger.exec, hr, Option.map_some, entries_of_shape hshape]
          exact h.read hroot hfreed (.lookup t.root key)
            (lookup_spec h.ok (h.holding.held t (by simp)) key)
  | scan r lo hi =>
      refine ⟨_, h.spare.1, h.spare.2, ?_⟩
      cases hr : l.trees r with
      | none => exact hstray hr _ _
      | some st =>
          obtain ⟨l₁, t, l₂, rfl, rfl, hshape⟩ := h.holding.tree hr
          simp only [Ledger.exec, hr, Option.map_some, entries_of_shape hshape]
          exact h.read hroot hfreed (.range t.root lo hi)
            (range_spec h.ok (h.holding.held t (by simp)) lo hi)
  | insert r key value =>
      cases hr : l.trees r with
      | none => exact ⟨_, h.spare.1, h.spare.2, hstray hr _ _⟩
      | some st => exact h.insert hroot hfreed hr key value
  | delete r key =>
      cases hr : l.trees r with
      | none => exact ⟨_, h.spare.1, h.spare.2, hstray hr _ _⟩
      | some st => exact h.delete hroot hfreed hr key
  | createTree => exact h.createTree hroot hfreed
  | freeTree r =>
      cases hr : l.trees r with
      | none => exact ⟨_, h.spare.1, h.spare.2, hstray hr _ _⟩
      | some st => exact h.freeTree hroot hfreed hr

end Running

/-! ## What a version reaches -/

/-- The pages the root of a tree reaches through the nodes of the tree. -/
inductive TreePage (view : Nat → Option (Frame Node)) : Nat → Nat → Prop
  | root (r : Nat) : TreePage view r r
  | child {r c id : Nat} {keys : List Bytes} {children : List Nat} :
      view r = some { id := r, body := .data (.internal keys children) } → c ∈ children →
      TreePage view c id → TreePage view r id

/-- The bindings the root of a tree reaches. -/
inductive TreeEntry (view : Nat → Option (Frame Node)) : Nat → Entry → Prop
  | leaf {r : Nat} {e : Entry} {keys vals : List Bytes} :
      view r = some { id := r, body := .data (.leaf keys vals) } → e ∈ keys.zip vals →
      TreeEntry view r e
  | child {r c : Nat} {e : Entry} {keys : List Bytes} {children : List Nat} :
      view r = some { id := r, body := .data (.internal keys children) } → c ∈ children →
      TreeEntry view c e → TreeEntry view r e

/-- The pages of a version: those of the tree at its root, and of the trees its entries name. -/
def VersionPage (name : Entry → Option Nat) (view : Nat → Option (Frame Node))
    (root : Option Nat) (id : Nat) : Prop :=
  ∃ r, root = some r ∧ (TreePage view r id ∨
    ∃ e r', TreeEntry view r e ∧ name e = some r' ∧ TreePage view r' id)

section Reach

variable {h : Nat} {p : Pager Node} {view : Nat → Option (Frame Node)} {id : Nat} {e : Entry}

theorem held_view {t : BTree.Tree Nat h} (ht : Held p t)
    (hview : ∀ id ∈ t.labels, view id = p.view id) :
    view t.label = some { id := t.label, body := .data t.toNode } := by
  rw [hview t.label (by rw [BTree.Tree.labels_eq]; exact List.mem_cons_self ..)]
  exact (held_iff.mp ht).1.1

/-- A held tree reaches its pages. -/
theorem treePage_iff {t : BTree.Tree Nat h} (ht : Held p t)
    (hview : ∀ id ∈ t.labels, view id = p.view id) :
    TreePage view t.label id ↔ id ∈ t.labels := by
  induction h with
  | zero =>
      obtain ⟨i, es, rfl⟩ := t.exists_leaf
      have hroot := held_view ht hview
      constructor
      · intro hpage
        cases hpage with
        | root => exact List.mem_singleton.mpr rfl
        | child hread =>
            rw [hroot] at hread
            cases hread
      · intro hid
        rw [List.mem_singleton.mp hid]
        exact .root _
  | succ h ih =>
      obtain ⟨i, ks, cs, rfl⟩ := t.exists_node
      have hroot := held_view ht hview
      have hbelow := below_node.mp (held_iff.mp ht).2
      have hsub : ∀ c ∈ cs, ∀ id ∈ c.labels, id ∈ (BTree.Tree.node i ks cs).labels :=
          fun c hc id hid => by
        rw [BTree.Tree.labels_node]
        exact List.mem_cons_of_mem _ (List.mem_flatMap.mpr ⟨c, hc, hid⟩)
      -- a walk that leaves the root goes on in one of its children
      have hchild : ∀ c ∈ cs, (TreePage view c.label id ↔ id ∈ c.labels) := fun c hc =>
        ih (hbelow c hc) fun id hid => hview id (hsub c hc id hid)
      constructor
      · intro hpage
        cases hpage with
        | root => exact List.mem_cons_self ..
        | child hread hc hrest =>
            rw [hroot] at hread
            cases hread
            obtain ⟨c, hcs, rfl⟩ := List.mem_map.mp hc
            exact hsub c hcs id ((hchild c hcs).mp hrest)
      · intro hid
        rw [BTree.Tree.labels_node] at hid
        rcases List.mem_cons.mp hid with rfl | hid
        · exact .root _
        · obtain ⟨c, hc, hid⟩ := List.mem_flatMap.mp hid
          exact .child hroot (List.mem_map_of_mem hc) ((hchild c hc).mpr hid)

/-- A held tree reaches its bindings. -/
theorem treeEntry_iff {t : BTree.Tree Nat h} (ht : Held p t)
    (hview : ∀ id ∈ t.labels, view id = p.view id) :
    TreeEntry view t.label e ↔ e ∈ t.entries := by
  induction h with
  | zero =>
      obtain ⟨i, es, rfl⟩ := t.exists_leaf
      have hroot := held_view ht hview
      rw [BTree.Tree.toNode_leaf] at hroot
      -- the page stores keys and values apart
      have hzip : (es.map Prod.fst).zip (es.map Prod.snd) = es := by
        rw [List.zip_map']
        exact List.map_id' es
      constructor
      · intro hentry
        cases hentry with
        | leaf hread he =>
            rw [hroot] at hread
            cases hread
            rwa [hzip] at he
        | child hread =>
            rw [hroot] at hread
            cases hread
      · intro he
        exact .leaf hroot (by rw [hzip]; exact he)
  | succ h ih =>
      obtain ⟨i, ks, cs, rfl⟩ := t.exists_node
      have hroot := held_view ht hview
      have hbelow := below_node.mp (held_iff.mp ht).2
      -- a walk that leaves the root goes on in one of its children
      have hchild : ∀ c ∈ cs, (TreeEntry view c.label e ↔ e ∈ c.entries) := fun c hc =>
        ih (hbelow c hc) fun id hid => hview id (by
          rw [BTree.Tree.labels_node]
          exact List.mem_cons_of_mem _ (List.mem_flatMap.mpr ⟨c, hc, hid⟩))
      rw [BTree.Tree.entries_node, List.mem_flatMap]
      constructor
      · intro hentry
        cases hentry with
        | leaf hread =>
            rw [hroot] at hread
            cases hread
        | child hread hc hrest =>
            rw [hroot] at hread
            cases hread
            obtain ⟨c, hcs, rfl⟩ := List.mem_map.mp hc
            exact ⟨c, hcs, (hchild c hcs).mp hrest⟩
      · rintro ⟨c, hc, he⟩
        exact .child hroot (List.mem_map_of_mem hc) ((hchild c hc).mpr he)

end Reach

/-- The bindings of the current trees, the published one first. -/
def Forest.contents (name : Entry → Option Nat) (f : Forest) : Contents :=
  let es := ((f.trees f.root).map TreeState.entries).getD []
  (f.root, es) :: (es.filterMap name).map fun r =>
    (r, ((f.trees r).map TreeState.entries).getD [])

namespace Holding

variable {name : Entry → Option Nat} {f : Forest} {p : Pager Node} {ts : List PageTree}
variable {view : Nat → Option (Frame Node)}

/-- A version reaches the pages of its trees. -/
theorem versionPage_iff (h : Holding p ts f.trees) (hn : f.Named name)
    (hview : ∀ id ∈ pagesOf ts, view id = p.view id) {id : Nat} :
    VersionPage name view (some f.root) id ↔ id ∈ pagesOf ts := by
  obtain ⟨st, hst, -, hroots⟩ := hn.tree
  have hpages : ∀ t ∈ ts, (TreePage view t.root id ↔ id ∈ t.pages) := fun t ht =>
    treePage_iff (h.held t ht).held fun id hid => hview id (mem_pagesOf.mpr ⟨t, ht, hid⟩)
  obtain ⟨l₁, t₀, l₂, hts, hroot₀, hshape₀⟩ := h.tree hst
  have ht₀ : t₀ ∈ ts := by simp [hts]
  have hentries : ∀ e, TreeEntry view f.root e ↔ e ∈ st.entries := fun e => by
    rw [← hroot₀, entries_of_shape hshape₀]
    exact treeEntry_iff (h.held t₀ ht₀).held fun id hid => hview id (mem_pagesOf.mpr ⟨t₀, ht₀, hid⟩)
  rw [mem_pagesOf]
  constructor
  · rintro ⟨r, ⟨⟩, hpage | ⟨e, r', he, hname, hpage⟩⟩
    · rw [← hroot₀] at hpage
      exact ⟨t₀, ht₀, (hpages t₀ ht₀).mp hpage⟩
    · have hmem : r' ∈ st.entries.filterMap name :=
        List.mem_filterMap.mpr ⟨e, (hentries e).mp he, hname⟩
      obtain ⟨st', hst'⟩ := Option.ne_none_iff_exists'.mp
        ((hroots r').mpr (List.mem_cons_of_mem _ hmem))
      obtain ⟨t, ht, rfl⟩ := h.all r' st' hst'
      exact ⟨t, ht, (hpages t ht).mp hpage⟩
  · rintro ⟨t, ht, hid⟩
    refine ⟨f.root, rfl, ?_⟩
    have hpage := (hpages t ht).mpr hid
    obtain ⟨st', hst', -⟩ := h.state t ht
    rcases List.mem_cons.mp ((hroots t.root).mp (by rw [hst']; exact Option.some_ne_none _))
      with hroot | hmem
    · exact .inl (hroot ▸ hpage)
    · obtain ⟨e, he, hname⟩ := List.mem_filterMap.mp hmem
      exact .inr ⟨e, t.root, (hentries e).mpr he, hname, hpage⟩

theorem range_eq (hp : p.Ok) (h : Holding p ts f.trees) {r : Nat} (hr : f.trees r ≠ none) :
    ∃ p', range r none none p = .ok (((f.trees r).map TreeState.entries).getD []) p' ∧
      Pager.Reads p p' := by
  obtain ⟨st, hst⟩ := Option.ne_none_iff_exists'.mp hr
  obtain ⟨l₁, t, l₂, rfl, rfl, hshape⟩ := h.tree hst
  obtain ⟨p', hrun, hreads⟩ := range_spec hp (h.held t (by simp)) none none
  have hall : t.entries.filter (fun e => inBounds none none e.1) = t.entries :=
    List.filter_eq_self.mpr fun _ _ => rfl
  rw [hall] at hrun
  exact ⟨p', by rw [hst, Option.map_some, Option.getD_some, entries_of_shape hshape, hrun], hreads⟩

/-- Reading all trees of the version returns the bindings of the forest. -/
theorem contents_eq (hp : p.Ok) (h : Holding p ts f.trees) (hn : f.Named name) :
    contents name (some f.root) p = f.contents name := by
  obtain ⟨st, hst, -, hroots⟩ := hn.tree
  -- the named trees, one after the other
  have hrest : ∀ rs : List Nat, (∀ r ∈ rs, f.trees r ≠ none) → ∀ p₁, p₁.Ok → Holding p₁ ts f.trees →
      ∃ p₂, (rs.mapM fun r => do pure (r, ← range r none none) : BTreeM Contents) p₁ =
        .ok (rs.map fun r => (r, ((f.trees r).map TreeState.entries).getD [])) p₂ := by
    intro rs
    induction rs with
    | nil => exact fun _ p₁ _ _ => ⟨p₁, rfl⟩
    | cons r rs ih =>
        intro hrs p₁ hp₁ h₁
        obtain ⟨p₂, hrun, hreads⟩ := h₁.range_eq hp₁ (hrs r (List.mem_cons_self ..))
        obtain ⟨p₃, hmap⟩ := ih (fun r' hr' => hrs r' (List.mem_cons_of_mem _ hr')) p₂ hreads.ok
          (h₁.grows hreads.grows)
        refine ⟨p₃, ?_⟩
        have hfirst : (do pure (r, ← range r none none) : BTreeM (Nat × List Entry)) p₁ =
            .ok (r, ((f.trees r).map TreeState.entries).getD []) p₂ := by
          rw [Lib.bind_of_ok hrun]
          rfl
        rw [List.mapM_cons, Lib.bind_of_ok hfirst, Lib.bind_of_ok hmap]
        rfl
  have hroot : f.trees f.root ≠ none := by
    rw [hst]
    exact Option.some_ne_none _
  obtain ⟨p₁, hrun, hreads⟩ := h.range_eq hp hroot
  obtain ⟨p₂, hmap⟩ := hrest (st.entries.filterMap name)
    (fun r hr => (hroots r).mpr (List.mem_cons_of_mem _ hr)) p₁ hreads.ok (h.grows hreads.grows)
  have hread : readContents name (some f.root) p = .ok (f.contents name) p₂ := by
    rw [hst, Option.map_some, Option.getD_some] at hrun
    simp only [readContents, Forest.contents, hst, Option.map_some, Option.getD_some]
    rw [Lib.bind_of_ok hrun, Lib.bind_of_ok hmap]
    rfl
  unfold contents
  rw [hread]

end Holding

end Edb.Txn
