import Edb.Txn.Serial

/-!
# What a job does to the pages

Between two jobs of a batch, in any life of a database, a job that succeeds supersedes the pages
of the trees it found, and those it wrote, that are in none of the trees it leaves
(`JobEffect.superseded_iff`). A page that the pager had given out before the job began belongs
to a tree it leaves only if it belonged to the tree this one descends from (`Descends`): a tree
operation takes pages from its own tree, and from the pager.
-/

namespace Edb.Txn

open Edb.BTree Edb.Lib

/-! ## The pages and bindings of held trees -/

namespace Holding

variable {p p' : Pager Node} {ts : List PageTree} {trees : Nat → Option TreeState} {r r' id : Nat}
variable {new : List Nat} {st : TreeState} {e : Entry}

/-- The pages of the trees are those a walk from their roots meets. -/
theorem treePage_iff (h : Holding p ts trees) :
    id ∈ pagesOf ts ↔ ∃ r, trees r ≠ none ∧ TreePage p.view r id := by
  rw [mem_pagesOf]
  constructor
  · rintro ⟨t, ht, hid⟩
    obtain ⟨st, hst, -⟩ := h.state t ht
    exact ⟨t.root, by rw [hst]; exact Option.some_ne_none st,
      (Txn.treePage_iff (h.held t ht).held fun _ _ => rfl).mpr hid⟩
  · rintro ⟨r, hr, hid⟩
    obtain ⟨st, hst⟩ := Option.ne_none_iff_exists'.mp hr
    obtain ⟨t, ht, rfl⟩ := h.all r st hst
    exact ⟨t, ht, (Txn.treePage_iff (h.held t ht).held fun _ _ => rfl).mp hid⟩

/-- A page belongs to one current tree at most. -/
theorem treePage_unique (h : Holding p ts trees) (hr : trees r ≠ none) (hr' : trees r' ≠ none)
    (hid : TreePage p.view r id) (hid' : TreePage p.view r' id) : r = r' := by
  obtain ⟨st, hst⟩ := Option.ne_none_iff_exists'.mp hr
  obtain ⟨st', hst'⟩ := Option.ne_none_iff_exists'.mp hr'
  obtain ⟨t, ht, rfl⟩ := h.all r st hst
  obtain ⟨t', ht', rfl⟩ := h.all r' st' hst'
  have hmem := (Txn.treePage_iff (h.held t ht).held fun _ _ => rfl).mp hid
  have hmem' := (Txn.treePage_iff (h.held t' ht').held fun _ _ => rfl).mp hid'
  by_contra hne
  have : Std.Symm (Function.onFun List.Disjoint PageTree.pages) :=
    ⟨fun _ _ h _ ha hb => h hb ha⟩
  have hdisjoint := (List.nodup_flatMap.mp h.nodup).2.forall ht ht' fun heq => hne (heq ▸ rfl)
  exact hdisjoint hmem hmem'

/-- The pages of a current tree are the same while pages are handed out. -/
theorem treePage_grows (h : Holding p ts trees) (hr : trees r ≠ none)
    (hview : ∀ id, p.Owned id → p'.view id = p.view id) :
    TreePage p'.view r id ↔ TreePage p.view r id := by
  obtain ⟨st, hst⟩ := Option.ne_none_iff_exists'.mp hr
  obtain ⟨t, ht, rfl⟩ := h.all r st hst
  have hheld := (h.held t ht).held
  rw [show t.root = t.2.label from rfl, Txn.treePage_iff hheld fun id hid =>
    hview id ((h.held t ht).owned id hid), Txn.treePage_iff hheld fun _ _ => rfl]

/-- The entries of a tree stay while the pages the client owns stay. -/
theorem treeEntry_grows (h : Holding p ts trees) (hr : trees r ≠ none)
    (hview : ∀ id, p.Owned id → p'.view id = p.view id) :
    TreeEntry p'.view r e ↔ TreeEntry p.view r e := by
  obtain ⟨st, hst⟩ := Option.ne_none_iff_exists'.mp hr
  obtain ⟨t, ht, rfl⟩ := h.all r st hst
  have hheld := (h.held t ht).held
  rw [show t.root = t.2.label from rfl, Txn.treeEntry_iff hheld fun id hid =>
    hview id ((h.held t ht).owned id hid), Txn.treeEntry_iff hheld fun _ _ => rfl]

/-- The entries a walk meets are the entries of the tree. -/
theorem treeEntry_iff (h : Holding p ts trees) (hr : trees r = some st) :
    TreeEntry p.view r e ↔ e ∈ st.entries := by
  obtain ⟨l₁, t, l₂, rfl, rfl, hshape⟩ := h.tree hr
  rw [entries_of_shape hshape]
  exact Txn.treeEntry_iff (h.held t (by simp)).held fun _ _ => rfl

end Holding

/-! ## Descent -/

/-- Where the pages of the current trees come from: what the pager had given out when the job
began at `p₀` is a page of the tree of origin. -/
def Descends (p₀ : Pager Node) (origin : Origin) (l : Ledger) (p : Pager Node) : Prop :=
  ∀ r, l.trees r ≠ none → ∀ id, p₀.Owned id → TreePage p.view r id →
    ∃ r₀, origin r = some r₀ ∧ TreePage p₀.view r₀ id

section Descent

variable {p₀ p p' : Pager Node} {f : Forest} {ts₀ ts : List PageTree} {l l' : Ledger}
variable {new new' fr : List Nat} {origin origin' : Origin} {r r' : Nat}
variable {st : TreeState}

/-- A tree operation takes the pages of its result from its tree and the pager. -/
theorem EditHeld.treePage {keeps : Prop} {t : PageTree} {e : Edit} {s : Shape.Any}
    (ht : Holds p t) (h : EditHeld keeps p' t e s new) {id : Nat}
    (hid : TreePage p'.view e.newRoot id) : TreePage p.view t.root id ∨ id ∈ new := by
  obtain ⟨t', hroot, -, hheld, hperm⟩ := h.tree
  rw [← hroot] at hid
  have hmem := (treePage_iff hheld fun _ _ => rfl).mp hid
  rcases List.mem_append.mp (hperm.subset (List.mem_append_left _ hmem)) with hmem | hmem
  · exact .inl ((treePage_iff ht.held fun _ _ => rfl).mpr hmem)
  · exact .inr hmem

/-- A step that takes the pages of each tree from one tree and the pager. -/
theorem Descends.step (hd : Descends p₀ origin l p) (h : Running p₀ f ts₀ l p ts new fr)
    (hg : Pager.Grows p p' new')
    (hpages : ∀ r, l'.trees r ≠ none → ∀ id, TreePage p'.view r id → id ∈ new' ∨
      ∃ r₁, l.trees r₁ ≠ none ∧ origin' r = origin r₁ ∧ TreePage p.view r₁ id) :
    Descends p₀ origin' l' p' := by
  intro r hr id howned hid
  rcases hpages r hr id hid with hnew | ⟨r₁, hr₁, horigin, hid₁⟩
  · exact absurd (h.grows.owned_mono howned) (hg.fresh hnew)
  · rw [horigin]
    exact hd r₁ hr₁ id howned hid₁

/-- A tree that stays current keeps its pages. -/
theorem Running.kept (h : Running p₀ f ts₀ l p ts new fr) (hg : Pager.Grows p p' new')
    (hr : l.trees r ≠ none) {id : Nat} (hid : TreePage p'.view r id) :
    ∃ r₁, l.trees r₁ ≠ none ∧ origin r = origin r₁ ∧ TreePage p.view r₁ id :=
  ⟨r, hr, rfl, (h.holding.treePage_grows hr hg.view).mp hid⟩

/-- A mutation that succeeds: the tree has moved to a fresh root, or stayed. -/
theorem Running.edited (h : Running p₀ f ts₀ l p ts new fr) (hd : Descends p₀ origin l p)
    (hr : l.trees r = some st) {e : Edit} {t : PageTree} (ht : Holds p t)
    (hroot : t.root = r) {keeps : Prop} {s : Shape.Any}
    (hg : Pager.Grows p p' new') (hheld : EditHeld keeps p' t e s new')
    (htrees : ∀ r', l'.trees r' ≠ none → r' = e.newRoot ∨ (r' ≠ e.newRoot ∧ l.trees r' ≠ none)) :
    Descends p₀ (Function.update origin e.newRoot (origin r)) l' p' := by
  refine hd.step h hg fun r' hr' id hid => ?_
  rcases htrees r' hr' with rfl | ⟨hne, hr'⟩
  · rw [Function.update_self]
    refine (EditHeld.treePage ht hheld hid).symm.imp_right fun hid => ⟨r, ?_, rfl, hroot ▸ hid⟩
    rw [hr]
    exact Option.some_ne_none st
  · rw [Function.update_of_ne hne]
    exact .inr (h.kept hg hr' hid)

/-- A read leaves every tree on its pages. -/
theorem Running.descends_read (h : Running p₀ f ts₀ l p ts new fr) (op : TreeOp)
    (hd : Descends p₀ origin l p) {a : op.Res}
    (hread : ∃ p', op.run p = .ok a p' ∧ Pager.Reads p p')
    (htrees : ∀ r, l'.trees r ≠ none → l.trees r ≠ none) :
    Descends p₀ origin l' (op.outcome p).2 := by
  obtain ⟨p', hrun, hreads⟩ := hread
  rw [TreeOp.outcome_ok op hrun]
  exact hd.step h hreads.grows fun r hr id hid => .inr (h.kept hreads.grows (htrees r hr) hid)

theorem current_of_retire (hr : (l.retire r).trees r' ≠ none) : l.trees r' ≠ none := by
  intro hnone
  change (if r' = r then none else l.trees r') ≠ none at hr
  rw [hnone, ite_self] at hr
  exact hr rfl

theorem current_of_add (hr : (l.add r st).trees r' ≠ none) :
    r' = r ∨ (r' ≠ r ∧ l.trees r' ≠ none) := by
  change (if r' = r then some st else l.trees r') ≠ none at hr
  by_cases heq : r' = r
  · exact .inl heq
  · rw [if_neg heq] at hr
    exact .inr ⟨heq, hr⟩

/-- Every operation of the write context keeps the descent. -/
theorem Running.descends (h : Running p₀ f ts₀ l p ts new fr) (hd : Descends p₀ origin l p)
    {op : CtxOp} {ctx : Ctx} {fresh : Nat} {a : op.Res}
    (hexec : l.exec fresh op = some (.ok (a, l'))) (hout : (op.outcome ctx p).1.1 = .ok a) :
    Descends p₀ (op.descend origin a) l' (op.outcome ctx p).2 := by
  cases op with
  | root =>
      cases hexec
      exact hd
  | setRoot r =>
      cases hexec
      exact hd
  | lookup r key =>
      obtain ⟨st, hr, hok⟩ := Option.map_eq_some_iff.mp hexec
      cases hok
      obtain ⟨l₁, t, l₂, rfl, rfl, -⟩ := h.holding.tree hr
      have hspec := lookup_spec h.ok (h.holding.held t (by simp)) key
      exact h.descends_read (.lookup t.root key) hd hspec fun _ => id
  | scan r lo hi =>
      obtain ⟨st, hr, hok⟩ := Option.map_eq_some_iff.mp hexec
      cases hok
      obtain ⟨l₁, t, l₂, rfl, rfl, -⟩ := h.holding.tree hr
      have hspec := range_spec h.ok (h.holding.held t (by simp)) lo hi
      exact h.descends_read (.range t.root lo hi) hd hspec fun _ => id
  | insert r key value =>
      obtain ⟨st, hr, hok⟩ := Option.map_eq_some_iff.mp hexec
      obtain ⟨l₁, t, l₂, rfl, rfl, -⟩ := h.holding.tree hr
      have ht : Holds p t := h.holding.held t (by simp)
      cases hrun : (TreeOp.insert t.root key value).run p with
      | error e p' =>
          rw [CtxOp.outcome, TreeOp.outcome_error _ hrun] at hout
          cases hout
      | ok e p' =>
          rw [CtxOp.outcome, TreeOp.outcome_ok _ hrun] at hout ⊢
          cases hout
          obtain ⟨s, new', hg, hheld⟩ := (insert_sim key value h.ok ht).of_ok hrun
          split at hok
          next t' _ =>
            cases hok
            exact h.edited hd hr ht rfl hg hheld fun r' hr' =>
              (current_of_add hr').imp_right fun hother => ⟨hother.1, current_of_retire hother.2⟩
          next => cases hok
  | delete r key =>
      obtain ⟨st, hr, hok⟩ := Option.map_eq_some_iff.mp hexec
      obtain ⟨l₁, t, l₂, rfl, rfl, -⟩ := h.holding.tree hr
      have ht : Holds p t := h.holding.held t (by simp)
      cases hrun : (TreeOp.delete t.root key).run p with
      | error e p' =>
          rw [CtxOp.outcome, TreeOp.outcome_error _ hrun] at hout
          cases hout
      | ok e p' =>
          rw [CtxOp.outcome, TreeOp.outcome_ok _ hrun] at hout ⊢
          cases hout
          obtain ⟨s, new', hg, hheld⟩ := (delete_sim key h.ok ht).of_ok hrun
          split at hok
          next t' _ =>
            cases hok
            exact h.edited hd hr ht rfl hg hheld fun r' hr' =>
              (current_of_add hr').imp_right fun hother => ⟨hother.1, current_of_retire hother.2⟩
          next =>
            -- the tree has stayed
            obtain ⟨hroot, rfl⟩ := Prod.mk.inj (Except.ok.inj hok)
            exact h.edited hd hr ht rfl hg hheld fun r' hr' =>
              (em (r' = e.newRoot)).imp_right fun hne => ⟨hne, hr'⟩
          next => cases hok
  | createTree =>
      cases hexec
      obtain ⟨root, p', hrun, hg, hholds⟩ := create_spec h.ok
      rw [CtxOp.outcome, TreeOp.outcome_ok .create hrun] at hout ⊢
      cases hout
      refine hd.step h hg fun r hr id hid => ?_
      rcases current_of_add hr with rfl | ⟨hne, hr⟩
      · exact .inl ((treePage_iff hholds.held fun _ _ => rfl).mp hid)
      · rw [CtxOp.descend, Function.update_of_ne hne]
        exact .inr (h.kept hg hr hid)
  | freeTree r =>
      obtain ⟨st, hr, hok⟩ := Option.map_eq_some_iff.mp hexec
      cases hok
      obtain ⟨l₁, t, l₂, rfl, rfl, -⟩ := h.holding.tree hr
      obtain ⟨pages, p', hrun, -, hreads⟩ := pages_spec h.ok (h.holding.held t (by simp))
      exact h.descends_read (.pages t.root) hd ⟨p', hrun, hreads⟩ fun _ => current_of_retire

end Descent

/-! ## The effect of a job -/

/-- The pages read the same and are given out to the same extent. -/
structure SamePages (p p' : Pager Node) : Prop where
  view : p'.view = p.view
  owned : ∀ id, p'.Owned id ↔ p.Owned id

theorem SamePages.refl (p : Pager Node) : SamePages p p := ⟨rfl, fun _ => Iff.rfl⟩

theorem SamePages.trans {p p' p'' : Pager Node} (h : SamePages p p') (h' : SamePages p' p'') :
    SamePages p p'' :=
  ⟨h'.view.trans h.view, fun id => (h'.owned id).trans (h.owned id)⟩

theorem samePages_reads {p p' : Pager Node} (h : Pager.Reads p p') : SamePages p p' := by
  refine ⟨funext h.view, fun id => ?_⟩
  obtain ⟨c, rfl⟩ := h.same
  exact Iff.rfl

theorem samePages_setLog (p : Pager Node) (log : Option (List Nat)) :
    SamePages p { p with allocLog := log } := ⟨rfl, fun _ => Iff.rfl⟩

theorem ok_setLog {p : Pager Node} (hp : p.Ok) (log : Option (List Nat)) :
    Pager.Ok { p with allocLog := log } :=
  ⟨hp.loads, hp.nodup, hp.range, hp.count, hp.coherent, hp.resident⟩

/-- What a job that succeeded has done from the pager `p₀` to `p`: it found the trees of the
forest `f`, left those of the ledger `l`, and superseded the pages `fr`. -/
structure JobEffect (p₀ p : Pager Node) (f : Forest) (origin : Origin) (l : Ledger)
    (fr : List Nat) : Prop where
  found : ∃ ts, Holding p₀ ts f.trees
  left : ∃ ts, Holding p ts l.trees
  view : ∀ id, p₀.Owned id → p.view id = p₀.view id
  owned : ∀ id, p₀.Owned id → p.Owned id
  descends : Descends p₀ origin l p
  nodup : fr.Nodup
  superseded : ∀ id, id ∈ fr ↔ ((∃ r, f.trees r ≠ none ∧ TreePage p₀.view r id) ∨
    (p.Owned id ∧ ¬ p₀.Owned id)) ∧ ∀ r, l.trees r ≠ none → ¬ TreePage p.view r id

section Effect

variable {p₀ p₀' p p' : Pager Node} {f : Forest} {ts₀ ts : List PageTree} {l : Ledger}
variable {new fr : List Nat} {origin : Origin}

/-- What a job did to its trees is told by where each tree comes from. -/
theorem Running.effect (hp₀ : p₀.Ok) (h₀ : Holding p₀ ts₀ f.trees)
    (h : Running p₀ f ts₀ l p ts new fr) (hd : Descends p₀ origin l p) :
    JobEffect p₀ p f origin l fr := by
  have hnodup := h.pages.nodup_iff.mpr (h₀.nodup_new hp₀ h.grows)
  refine ⟨⟨ts₀, h₀⟩, ⟨ts, h.holding⟩, h.grows.view, fun id => h.grows.owned_mono, hd,
    (List.nodup_append.mp hnodup).2.1, fun id => ?_⟩
  have hnew : id ∈ new ↔ p.Owned id ∧ ¬ p₀.Owned id := by
    rw [h.grows.owned_iff hp₀]
    refine ⟨fun hid => ⟨.inr hid, h.grows.fresh hid⟩, ?_⟩
    rintro ⟨hid | hid, hnot⟩
    · exact absurd hid hnot
    · exact hid
  rw [← h₀.treePage_iff, ← hnew, ← List.mem_append, ← h.pages.mem_iff, List.mem_append]
  have hleft : (∀ r, l.trees r ≠ none → ¬ TreePage p.view r id) ↔ id ∉ pagesOf ts := by
    rw [h.holding.treePage_iff]
    simp only [not_exists, not_and]
  rw [hleft]
  constructor
  · intro hid
    exact ⟨.inr hid, fun hts => (List.nodup_append.mp hnodup).2.2 id hts id hid rfl⟩
  · rintro ⟨hid | hid, hnot⟩
    · exact absurd hid hnot
    · exact hid

/-- The effect is one on the pages. -/
theorem JobEffect.congr (h : JobEffect p₀ p f origin l fr) (h₀ : SamePages p₀' p₀)
    (h' : SamePages p p') : JobEffect p₀' p' f origin l fr := by
  obtain ⟨ts₀, hfound⟩ := h.found
  obtain ⟨ts, hleft⟩ := h.left
  refine ⟨⟨ts₀, hfound.frame (fun id _ => ?_) fun id hid => ?_⟩,
    ⟨ts, hleft.frame (fun id _ => ?_) fun id hid => ?_⟩, fun id hid => ?_, fun id hid => ?_,
    fun r hr id hid hpage => ?_, h.nodup, fun id => ?_⟩
  · rw [h₀.view]
  · exact (h₀.owned id).mp (hfound.owned hid)
  · rw [h'.view]
  · exact (h'.owned id).mpr (hleft.owned hid)
  · rw [h'.view, ← h₀.view]
    exact h.view id ((h₀.owned id).mpr hid)
  · exact (h'.owned id).mpr (h.owned id ((h₀.owned id).mpr hid))
  · rw [h'.view] at hpage
    rw [← h₀.view]
    exact h.descends r hr id ((h₀.owned id).mpr hid) hpage
  · rw [h'.view, ← h₀.view, h'.owned, ← h₀.owned]
    exact h.superseded id

end Effect

/-! ## Between two jobs -/

section Between

variable {C : Client} {s s' : C.State} {w w' : Writer} {freed freed' : List Nat}

/-- In some life of the database, between two jobs of a batch: the state, the writer, and the
pages the batch has superseded so far. -/
def Client.Between (C : Client) (s : C.State) (w : Writer) (freed : List Nat) : Prop :=
  ∃ (s₀ s₁ : C.State) (w₀ w₁ : Writer) (batches : List (List C.Request))
    (requests : List C.Request) (outcomes : List (Except (TxnError C.Reject) C.Out)),
    C.Starts s₀ w₀ ∧ C.Reaches (C.program w₀ batches, s₀) (.ret (.ok w₁), s₁) ∧
      Prog.Reaches (WriterOp.exec C.name) ReaderStep
        (applyJobs w₁ [] [] (requests.map C.apply), s₁) (.ret (.ok (w, freed, outcomes)), s)

theorem Client.Between.quiet (h : C.Between s w freed) : ∃ lost b n φ,
    b.Agrees w freed ∧ Quiet C lost b n φ s := by
  obtain ⟨s₀, s₁, w₀, w₁, batches, requests, outcomes, hstart, hrun, hjobs⟩ := h
  obtain ⟨lost, f₀, ts, hreplies, hidle₀, hquiet₀⟩ := hstart.opened
  obtain ⟨b, n, φ, ⟨hidle, -⟩, hquiet⟩ := (run_spec batches hidle₀ s₀ hquiet₀ _ hrun).2 _ rfl
  have hmoved : b.Moved := .inl ⟨hidle.current, hidle.trees, hidle.agrees.freed⟩
  obtain ⟨b', ⟨hagrees, -⟩, hquiet'⟩ :=
    (applyJobs_spec requests hidle.agrees hmoved s₁ hquiet _ hjobs).2 _ rfl
  exact ⟨lost, b', n, φ, hagrees, hquiet'⟩

/-- Between two jobs the pager holds the trees of a forest that the jobs have kept to. -/
theorem Client.Between.holding (h : C.Between s w freed) : s.pager.Ok ∧ ∃ ts f, C.Inv f ∧
    f.root = w.root ∧ Holding s.pager ts f.trees := by
  obtain ⟨lost, b, n, φ, hagrees, hquiet⟩ := h.quiet
  have hkept := hquiet.1.kept
  exact ⟨hkept.ok, b.trees, b.current, hkept.inv, hagrees.root, hkept.holding⟩

/-- Where pages come from is carried along by every job. -/
theorem carried_descends (p : Pager Node) (b : Books) : Carried p b (Descends p) := by
  refine ⟨fun hd hreads r hr id howned hid => ?_, fun hrun hd hexec hout =>
    hrun.descends hd hexec hout⟩
  rw [(samePages_reads hreads).view] at hid
  exact hd r hr id howned hid

theorem descends_start (p : Pager Node) (f : Forest) : Descends p some (.start f) p :=
  fun r _ _ _ hid => ⟨r, rfl, hid⟩

/-- A job that succeeds between two jobs of a batch. -/
theorem Client.Between.effect (h : C.Between s w freed) {request : C.Request} {out : C.Out}
    {outcomes : List (Except (TxnError C.Reject) C.Out)}
    (hrun : Prog.Reaches (WriterOp.exec C.name) ReaderStep
      (applyJobs w freed outcomes [C.apply request], s)
      (.ret (.ok (w', freed', outcomes ++ [.ok out])), s')) :
    ∃ f origin l fr, (C.Inv f ∧ f.root = w.root) ∧
      ((C.apply request).traced some).Yields (.start f) (.ok (out, origin)) l ∧
      w'.root = l.root ∧ freed' = freed ++ fr ∧ s'.pager.Ok ∧
      JobEffect s.pager s'.pager f origin l fr := by
  obtain ⟨lost, b, n, φ, hagrees, hquiet⟩ := h.quiet
  rw [applyJobs] at hrun
  obtain ⟨_, s₁, hbegin, hrun⟩ := hrun.bind_ret
  obtain ⟨⟨outcome, ctx⟩, s₂, hjob, hrun⟩ := hrun.bind_ret
  obtain ⟨recorded, s₃, htake, hrun⟩ := hrun.bind_ret
  -- the job begins on the pages there are
  have hidle : Prog.Stable ReaderStep fun s' : C.State =>
      Quiet C lost b n φ s' ∧ SamePages s.pager s'.pager := by
    rintro s₁ s₂ hstep ⟨hs, hsame⟩
    exact ⟨asserts_quiet.stable _ _ hstep hs,
      hsame.trans (samePages_reads (hstep.reads hs.1.kept.ok))⟩
  have hbusy : Prog.Stable ReaderStep fun s' : C.State =>
      ∃ p, SamePages s.pager p ∧ Working C lost p b n φ (fun q =>
        JobAt p b b.freed (.start b.current) { root := b.current.root, freed := b.freed } q ∧
          Descends p some (.start b.current) q) s' := by
    rintro s₁ s₂ hstep ⟨p, hsame, hworking⟩
    exact ⟨p, hsame, (asserts_working
      ((extending_jobAt _ _).and fun _ _ => (carried_descends p b).reads)).stable _ _ hstep
        hworking⟩
  obtain ⟨p, hsame, hworking⟩ := hbegin.perform_ret hidle ⟨hquiet, .refl _⟩ hbusy (by
    rintro s₁ ⟨hs, hsame⟩
    exact ⟨_, hsame.trans (samePages_setLog _ _), hs.begin.1,
      ⟨hs.begin.2.1, descends_start _ _⟩, hs.begin.2.2⟩)
  have hsound := C.sound hworking.1.kept.inv request
  rw [← hagrees.root, ← hagrees.freed] at hjob
  obtain ⟨origin, l, hyields, hsteady, ⟨hend, hdescends⟩, -⟩ :=
    (Job.traced_spec (C.apply request) some (carried_descends p b) hsound s₁ hworking _ hjob).2
      _ rfl
  have htrivial : Prog.Stable ReaderStep fun _ : C.State => True := fun _ _ _ _ => trivial
  cases outcome with
  | error e =>
      -- an error would be the answer, or stop the writer
      exfalso
      by_cases hfatal : e.isFatal = true
      · simp only [hfatal, if_true] at hrun
        obtain ⟨_, s₄, _, hrun⟩ := hrun.bind_ret
        obtain ⟨_, _, heq⟩ := hrun.of_ret htrivial trivial
        cases heq
      · simp only [hfatal, Bool.false_eq_true, if_false] at hrun
        obtain ⟨_, _, heq⟩ := hrun.of_ret htrivial trivial
        simp at heq
  | ok out' =>
      obtain ⟨hroot, ts, new, fr, hrunning, hfreed⟩ := hend
      have hkept := hworking.1.kept
      have heffect := (hrunning.effect hkept.ok hkept.holding (hdescends rfl)).congr hsame (.refl _)
      have hstable : Prog.Stable ReaderStep fun s' : C.State => s'.pager.Ok ∧
          JobEffect s.pager s'.pager b.current origin l fr := by
        rintro s' s'' hstep ⟨hok, heffect⟩
        have hreads := hstep.reads hok
        exact ⟨hreads.ok, heffect.congr (.refl _) (samePages_reads hreads)⟩
      have htaken := htake.perform_ret hstable ⟨hrunning.ok, heffect⟩ hstable (by
        rintro s' ⟨hok, heffect⟩
        exact ⟨ok_setLog hok none, heffect.congr (.refl _) (samePages_setLog _ _)⟩)
      obtain ⟨s'', ⟨hok, hfinal⟩, heq⟩ := hrun.of_ret hstable htaken
      obtain ⟨hret, rfl⟩ := Prod.mk.inj heq
      obtain ⟨rfl, rfl, rfl⟩ :
          w' = { w with root := ctx.root } ∧ freed' = ctx.freed ∧ out = out' := by
        simpa using hret
      exact ⟨b.current, origin, l, fr, ⟨hkept.inv, hagrees.root⟩, hyields, hroot,
        by rw [hfreed, hagrees.freed], hok, hfinal⟩

end Between

end Edb.Txn
