import Edb.Txn.Batch

/-!
# Runs of the writer

The commit of a batch, with its I/O done write by write beside the readers; the batch around it;
and the loop over batches (`run_spec`). Between two batches the writer is `Resting`: the current
trees are the durable ones, published, and answered for.
-/

namespace Edb.Txn

open Edb.BTree Edb.Lib

/-! ## Commit -/

section Commit

variable {C : Client} {lost : List Nat} {b : Books} {n : Nat} {φ : Status C.Reject C.Out}
variable {p : Pager Node} {k : Nat}

/-- A commit of the current trees begun at `p` has done `k` of its I/O operations; their contents
are the latest version recorded. -/
def Committing (C : Client) (lost : List Nat) (p : Pager Node) (b : Books) (n : Nat)
    (φ : Status C.Reject C.Out) (k : Nat) (s : Shared C.Reject C.Out) : Prop :=
  (p.metadata.catalogRoot = some b.current.root ∧
    φ.versions[n + 1]? = some (b.current.contents C.name)) ∧
    Steady C lost b n p s ∧ Pager.Flushing p k s.pager ∧ s.status = φ

theorem asserts_committing : Asserts C (Committing C lost p b n φ k) := by
  refine ⟨?_, ?_⟩
  · rintro s s' hstep ⟨hfacts, hsteady, hflush, hstatus⟩
    exact ⟨hfacts, hsteady.reader hstep, hflush.reads (hstep.reads hflush.ok),
      (hstep.status hflush.ok).trans hstatus⟩
  · rintro s ⟨⟨hroot, hnext⟩, hsteady, hflush, hstatus⟩
    refine hsteady.safe_flushing (m := n + 1) hroot hflush ?_
      (Nat.le_succ_of_le hsteady.acknowledged)
    rw [← hstatus] at hnext
    exact hnext

/-- A commit begins with the new version among those that may become durable. -/
theorem commitBegin_spec (hroot : φ.catalogRoot = some b.current.root)
    (hlen : φ.versions.length = n + 1) (hack : φ.acknowledged = n + 1) :
    Spec C (Quiet C lost b n φ) WriterM.commitBegin fun r s =>
      ∃ p : Pager Node, r = .ok p.plan ∧
        Committing C lost p b n { φ with versions := φ.versions ++ [b.current.contents C.name] }
          0 s := by
  refine Prog.Triple.perform asserts_quiet
    (fun _ => .of_exists fun p => .of_imp fun _ => asserts_committing) ?_
  rintro s ⟨hsteady, rfl⟩
  have hkept := hsteady.kept
  -- the version recorded is read from the pages, and is the one of the books
  have hcontents : contents C.name s.pager.metadata.catalogRoot s.pager =
      b.current.contents C.name := by
    rw [show s.pager.metadata.catalogRoot = some b.current.root from hroot]
    exact hkept.holding.contents_eq hkept.ok (C.named hkept.inv)
  have hexec : WriterOp.exec C.name .commitBegin s = (.ok s.pager.plan, { s with
      versions := s.versions ++ [b.current.contents C.name], pager := s.pager.rebuilt }) := by
    rw [← hcontents]
    change Shared.fallible Pager.commitBegin { s with versions := _ } = _
    unfold Shared.fallible
    rw [Pager.commitBegin_eq hkept.ok.loads]
  have hlen' : s.versions.length = n + 1 := hlen
  rw [hexec]
  refine ⟨s.pager, rfl, ⟨hroot, ?_⟩, ⟨hkept, hsteady.pinned.congr rfl rfl rfl, ?_,
    hsteady.acknowledged, ?_⟩, Pager.flushing_begin hkept.ok, ?_⟩
  · change (s.versions ++ [_])[n + 1]? = _
    rw [← hlen', List.getElem?_concat_length]
  · change (s.versions ++ [_])[n]? = _
    rw [List.getElem?_append_left (by omega)]
    exact hsteady.recorded
  · change (s.versions ++ [_]).length ≤ s.acknowledged + 1
    rw [List.length_append, hlen', show s.acknowledged = n + 1 from hack]
    rfl
  · unfold Shared.status
    dsimp only
    rw [Pager.rebuilt_eq]
    rfl

/-- The I/O of the commit runs to its end, whatever the readers do between its operations. -/
theorem runIo_spec (l : List (IoOp Node)) (hk : k ≤ p.plan.io.length)
    (hl : p.plan.io.drop k = l) :
    Spec C (Committing C lost p b n φ k) (runIo l) fun _ =>
      Committing C lost p b n φ p.plan.io.length := by
  induction l generalizing k with
  | nil =>
      obtain rfl : k = p.plan.io.length := le_antisymm hk (List.drop_eq_nil_iff.mp hl)
      exact Prog.Triple.ret asserts_committing fun s hs => hs
  | cons op l ih =>
      have hop : p.plan.io[k]? = some op := by
        rw [← List.head?_drop, hl]
        rfl
      obtain ⟨hlt, -⟩ := List.getElem?_eq_some_iff.mp hop
      refine Prog.Triple.bind (Q := fun _ => Committing C lost p b n φ (k + 1)) ?_
        fun _ => ih hlt ?_
      · refine Prog.Triple.perform asserts_committing (fun _ => asserts_committing) ?_
        rintro s ⟨hfacts, hsteady, hflush, hstatus⟩
        obtain ⟨v, hv, -⟩ := hsteady.kept.version
        exact ⟨hfacts, hsteady.setPager _, hflush.io hv hop, hstatus⟩
      · rw [← List.tail_drop, hl]
        rfl

/-- At the end of a commit the current state is the durable one. -/
theorem commitEnd_spec :
    Spec C (Committing C lost p b n φ p.plan.io.length) (WriterM.commitEnd p.plan) fun _ =>
      Quiet C lost { b with durable := b.current, durableTrees := b.trees } (n + 1)
        { φ with txnId := φ.txnId + 1 } := by
  refine Prog.Triple.perform asserts_committing (fun _ => asserts_quiet) ?_
  rintro s ⟨⟨hroot, hnext⟩, hsteady, hflush, rfl⟩
  obtain ⟨v, hv, -⟩ := hsteady.kept.version
  have hreads := hflush.finish hv
  obtain ⟨-, hcommits⟩ := hv.follows.afterCommit_spec
  obtain ⟨c, hc⟩ := hflush.same
  have htxn : (Pager.commitEnd p.plan s.pager).txnId = p.txnId + 1 := by
    rw [hsteady.kept.txn]
    rfl
  refine ⟨⟨hsteady.kept.commit hroot hreads, ?_, hnext, ?_, hsteady.inFlight⟩, ?_⟩
  · refine Pinned.congr (hsteady.pinned.frame hsteady.kept (fun id hid => ?_) ?_
      (fun _ hid => hid) rfl) rfl rfl rfl
    · exact (hreads.view id).trans (hcommits.view id hid)
    · change p.txnId ≤ (Pager.commitEnd p.plan s.pager).txnId
      omega
  · exact Nat.le_succ_of_le hsteady.acknowledged
  · have hold : s.pager.txnId = p.txnId := by
      rw [hc, Pager.rebuilt_eq]
      rfl
    have hkeep : (Pager.commitEnd p.plan s.pager).metadata.catalogRoot =
        s.pager.metadata.catalogRoot := by
      rw [hc]
      rfl
    change Shared.status { s with pager := Pager.commitEnd p.plan s.pager } = _
    unfold Shared.status
    dsimp only
    rw [htxn, hkeep, hold]

/-- The commit makes the current trees durable. -/
theorem commit_spec (hroot : φ.catalogRoot = some b.current.root)
    (hlen : φ.versions.length = n + 1) (hack : φ.acknowledged = n + 1) :
    Spec C (Quiet C lost b n φ) commit fun r s => r = .ok () ∧
      Quiet C lost { b with durable := b.current, durableTrees := b.trees } (n + 1)
        { φ with
          txnId := φ.txnId + 1
          versions := φ.versions ++ [b.current.contents C.name] } s := by
  refine Prog.Triple.bind (commitBegin_spec hroot hlen hack) fun r =>
    Prog.Triple.exists_pre fun p => Prog.Triple.of_imp ?_
  rintro rfl
  refine Prog.Triple.bind (runIo_spec p.plan.io (Nat.zero_le _) rfl) fun _ => ?_
  refine Prog.Triple.bind commitEnd_spec fun _ => ?_
  exact Prog.Triple.ret asserts_quiet fun s hs => ⟨rfl, hs⟩

end Commit

/-! ## A batch -/

section Batch

variable {C : Client} {lost : List Nat} {b : Books} {n : Nat} {φ : Status C.Reject C.Out}

theorem setCatalogRoot_spec (root : Nat) :
    Spec C (Quiet C lost b n φ) (WriterM.setCatalogRoot (some root)) fun _ =>
      Quiet C lost b n { φ with catalogRoot := some root } := by
  refine Prog.Triple.perform asserts_quiet (fun _ => asserts_quiet) ?_
  rintro s ⟨hsteady, rfl⟩
  refine ⟨Steady.setPager (hsteady.move (hsteady.kept.setCatalogRoot (some root)) rfl
    (fun _ _ => rfl) (le_refl _) (fun _ hid => hid) rfl) _, rfl⟩

theorem txnId_spec : Spec C (Quiet C lost b n φ) WriterM.txnId fun txn s =>
    txn = φ.txnId ∧ Quiet C lost b n φ s := by
  refine Prog.Triple.perform asserts_quiet (fun _ => .of_imp fun _ => asserts_quiet) ?_
  rintro s ⟨hsteady, rfl⟩
  exact ⟨rfl, hsteady, rfl⟩

/-- The committed trees are published, and what the batch superseded is parked. -/
theorem publish_spec (hdurable : b.durableTrees = b.trees) (hlt : φ.published < φ.txnId) :
    Spec C (Quiet C lost b n φ) (WriterM.publish (some b.current.root) φ.txnId) fun _ =>
      Quiet C lost (b.park φ.txnId) n
        { φ with root := some b.current.root, published := φ.txnId } := by
  refine Prog.Triple.perform asserts_quiet (fun _ => asserts_quiet) ?_
  rintro s ⟨hsteady, rfl⟩
  refine ⟨⟨hsteady.kept.park hdurable _, ?_, hsteady.recorded, hsteady.acknowledged,
    hsteady.inFlight⟩, rfl⟩
  exact hsteady.pinned.publish hsteady.kept hlt (le_refl _)

/-- The status after the commit of a batch. -/
def Status.afterCommit {ε Out : Type} (φ : Status ε Out) (root : Nat) (contents : Contents) :
    Status ε Out :=
  { φ with
    catalogRoot := some root
    txnId := φ.txnId + 1
    root := some root
    published := φ.txnId + 1
    versions := φ.versions ++ [contents] }

/-- Committing a batch makes its state durable and parks what it freed. -/
theorem commitBatch_spec {w : Writer} {freed : List Nat} (hagrees : b.Agrees w freed)
    (hlen : φ.versions.length = n + 1) (hack : φ.acknowledged = n + 1) :
    Spec C (Quiet C lost b n φ) (commitBatch w freed) fun r s => ∃ (w' : Writer) (txn : Nat)
      (b' : Books), (r = .ok (w', txn) ∧ b'.Agrees w' [] ∧ b'.current = b.current ∧
        b'.durable = b.current ∧ b'.durableTrees = b'.trees) ∧
        Quiet C lost b' (n + 1) (φ.afterCommit w'.root (b.current.contents C.name)) s := by
  rw [commitBatch, ← hagrees.pending]
  refine Prog.Triple.of_pre (a := φ.published ≤ φ.txnId)
    (fun s hs => by rw [← hs.2]; exact hs.1.pinned.age) fun hage => ?_
  refine Prog.Triple.bind reclaim_spec fun r => Prog.Triple.exists_pre fun still =>
    Prog.Triple.of_imp ?_
  rintro rfl
  refine Prog.Triple.bind (freePages_orphaned_spec hagrees.orphaned) fun r => Prog.Triple.of_imp ?_
  rintro rfl
  rw [← hagrees.root, ← hagrees.freed]
  refine Prog.Triple.bind (setCatalogRoot_spec b.current.root) fun _ => ?_
  refine Prog.Triple.bind (commit_spec rfl hlen hack) fun r => Prog.Triple.of_imp ?_
  rintro rfl
  refine Prog.Triple.bind txnId_spec fun txn => Prog.Triple.of_imp ?_
  rintro rfl
  refine Prog.Triple.bind (publish_spec rfl (Nat.lt_succ_of_le hage)) fun _ => ?_
  refine Prog.Triple.ret asserts_quiet fun s hs => ?_
  -- the books after the reclamation and the commit
  let b' : Books :=
    { b with
      durable := b.current
      durableTrees := b.trees
      pending := still
      orphaned := [] }
  exact ⟨_, _, b'.park (φ.txnId + 1), ⟨rfl, ⟨rfl, rfl, rfl, rfl⟩, rfl, rfl, rfl⟩, hs⟩

/-- An answer without the transaction id. -/
def Reply.outcome {ε Out : Type} (r : Reply ε Out) : Except (TxnError ε) Out := r.map Prod.snd

theorem outcome_replies {ε Out : Type} (outcomes : List (Except (TxnError ε) Out)) (txn : Nat) :
    (outcomes.map fun outcome => outcome.map fun out => (txn, out)).map Reply.outcome =
      outcomes := by
  rw [List.map_map]
  refine (List.map_congr_left fun outcome _ => ?_).trans (List.map_id _)
  cases outcome <;> rfl

/-- The answer to a batch that has committed its version. -/
theorem reply_committed_spec (replies : List (Reply C.Reject C.Out))
    (hlen : φ.versions.length = n + 1) (hack : φ.acknowledged = n) :
    Spec C (Quiet C lost b n φ) (WriterM.reply replies) fun _ =>
      Quiet C lost b n { φ with acknowledged := n + 1, replies := φ.replies ++ replies } := by
  refine Prog.Triple.perform asserts_quiet (fun _ => asserts_quiet) ?_
  rintro s ⟨hsteady, rfl⟩
  have hlen' : s.versions.length = n + 1 := hlen
  have hack' : s.acknowledged = n := hack
  have hanswer : s.answer C.name replies =
      { s with replies := s.replies ++ replies, acknowledged := n + 1 } := by
    unfold Shared.answer
    rw [if_neg (by omega)]
    dsimp only
    rw [hlen']
  change Quiet C lost b n _ (s.answer C.name replies)
  rw [hanswer]
  exact ⟨⟨hsteady.kept, hsteady.pinned.congr rfl rfl rfl, hsteady.recorded, le_refl _,
    by change s.versions.length ≤ n + 1 + 1; omega⟩, rfl⟩

/-- The answer to a batch that has changed nothing. -/
theorem reply_unchanged_spec (replies : List (Reply C.Reject C.Out))
    (hlen : φ.versions.length = n + 1) (hack : φ.acknowledged = n + 1)
    (hroot : φ.catalogRoot = some b.current.root) (hcurrent : b.current = b.durable) :
    Spec C (Quiet C lost b n φ) (WriterM.reply replies) fun _ =>
      Quiet C lost b (n + 1)
        { φ with
          versions := φ.versions ++ [b.current.contents C.name]
          acknowledged := n + 2
          replies := φ.replies ++ replies } := by
  refine Prog.Triple.perform asserts_quiet (fun _ => asserts_quiet) ?_
  rintro s ⟨hsteady, rfl⟩
  have hlen' : s.versions.length = n + 1 := hlen
  have hack' : s.acknowledged = n + 1 := hack
  have hroot' : s.pager.metadata.catalogRoot = some b.current.root := hroot
  have hkept := hsteady.kept
  have hanswer : s.answer C.name replies =
      { s with
        replies := s.replies ++ replies
        versions := s.versions ++ [b.current.contents C.name]
        acknowledged := n + 2 } := by
    unfold Shared.answer
    rw [if_pos (by omega), hroot', hkept.holding.contents_eq hkept.ok (C.named hkept.inv)]
    dsimp only
    rw [List.length_append, hlen']
    rfl
  change Quiet C lost b (n + 1) _ (s.answer C.name replies)
  rw [hanswer]
  refine ⟨⟨hkept, hsteady.pinned.congr rfl rfl rfl, ?_, le_refl _, ?_⟩, rfl⟩
  · rw [← hcurrent, ← hlen']
    exact List.getElem?_concat_length
  · change (s.versions ++ [_]).length ≤ _
    rw [List.length_append, hlen']
    exact Nat.le_succ _

/-- Between two batches: the current trees are the durable ones, published and answered for. -/
structure Idle (C : Client) (w : Writer) (b : Books) (n : Nat) (φ : Status C.Reject C.Out) :
    Prop where
  agrees : b.Agrees w []
  current : b.current = b.durable
  trees : b.trees = b.durableTrees
  catalogRoot : φ.catalogRoot = some w.root
  root : φ.root = some w.root
  versions : φ.versions.length = n + 1
  acknowledged : φ.acknowledged = n + 1

/-- The writer after some batches, with the requests they came from: the answers are those of
applying the jobs one after the other, and so is the forest. -/
def AfterBatch (C : Client) (lost : List Nat) (f : Forest) (φ : Status C.Reject C.Out)
    (requests : List C.Request) :
    Except (TxnError C.Reject) Writer → Shared C.Reject C.Out → Prop
  | .ok w, s => ∃ b n φ', (Idle C w b n φ' ∧ ∃ outcomes, Applies C f requests outcomes b.current ∧
      φ'.replies.map Reply.outcome = φ.replies.map Reply.outcome ++ outcomes) ∧
      Quiet C lost b n φ' s
  | .error _, s => ∃ b n φ', Quiet C lost b n φ' s

theorem asserts_stopped : Asserts C fun s => ∃ b n φ', Quiet C lost b n φ' s :=
  .of_exists fun _ => .of_exists fun _ => .of_exists fun _ => asserts_quiet

/-- A batch whose root has not moved has changed nothing. -/
theorem unchanged_of_root {w w' : Writer} {b' : Books} {freed : List Nat} (hidle : Idle C w b n φ)
    (hagrees : b'.Agrees w' freed) (hmoved : b'.Moved) (hsince : b.Since b')
    (hroot : w'.root = w.root) {p : Pager Node} (hkept : Kept C lost b' p) :
    b'.current = b'.durable ∧ b'.trees = b'.durableTrees ∧ b'.freed = [] := by
  rcases hmoved with hsame | hmem
  · exact hsame
  · -- the durable root is still current, so it has not been superseded
    exfalso
    have hdurable : b'.durable.root = b'.current.root := by
      rw [hsince.durable, ← hidle.current, hidle.agrees.root, hagrees.root, hroot]
    rw [hdurable] at hmem
    have hcount := hkept.count_le b'.current.root
    have h₁ := List.count_pos_iff.mpr hkept.root_mem
    have h₂ := List.count_pos_iff.mpr hmem
    omega

/-- A batch answers every request with the outcome of its job, and what it changed is durable. -/
theorem processBatch_spec (requests : List C.Request) {w : Writer} (hidle : Idle C w b n φ) :
    Spec C (Quiet C lost b n φ) (processBatch w (requests.map C.apply))
      (AfterBatch C lost b.current φ requests) := by
  have hmoved : b.Moved := .inl ⟨hidle.current, hidle.trees, hidle.agrees.freed⟩
  refine Prog.Triple.bind (applyJobs_spec requests hidle.agrees hmoved) ?_
  rintro (e | ⟨w', freed, outcomes⟩)
  · refine Prog.Triple.ret (asserts_afterJobs requests [] (.error e)) ?_
    rintro s ⟨b', φ', hs⟩
    exact ⟨b', n, φ', hs⟩
  · refine Prog.Triple.exists_pre fun b' => Prog.Triple.of_imp ?_
    rintro ⟨hagrees, hmoved', hsince, outs, houts, happlies⟩
    rw [List.nil_append] at houts
    subst houts
    dsimp only
    -- a batch that moved the root commits, one that did not only answers
    by_cases hroot : w'.root ≠ w.root
    · rw [if_pos hroot]
      refine Prog.Triple.bind (commitBatch_spec hagrees hidle.versions hidle.acknowledged) ?_
      rintro r
      refine Prog.Triple.exists_pre fun w'' => Prog.Triple.exists_pre fun txn =>
        Prog.Triple.exists_pre fun b'' => Prog.Triple.of_imp ?_
      rintro ⟨rfl, hagrees', hcurrent, hdurable, htrees⟩
      refine Prog.Triple.bind (reply_committed_spec _ ?_ hidle.acknowledged) fun _ => ?_
      · simp only [Status.afterCommit, List.length_append, hidle.versions, List.length_singleton]
      · refine Prog.Triple.ret asserts_quiet fun s hs => ?_
        refine ⟨b'', n + 1, _, ⟨⟨hagrees', hcurrent.trans hdurable.symm, htrees.symm, rfl, rfl, ?_,
          rfl⟩, outcomes, ?_, ?_⟩, hs⟩
        · simp only [Status.afterCommit, List.length_append, hidle.versions, List.length_singleton]
        · rw [hcurrent]
          exact happlies
        · simp only [Status.afterCommit, List.map_append, outcome_replies]
    · rw [if_neg hroot]
      -- the root stands still, so no job of the batch changed a tree or freed a page
      have hroot' : w'.root = w.root := not_not.mp hroot
      refine Prog.Triple.of_pre
        (fun s hs => unchanged_of_root hidle hagrees hmoved' hsince hroot' hs.1.kept) ?_
      rintro ⟨hcurrent, htrees, hfreed⟩
      have hcatalog : φ.catalogRoot = some b'.current.root := by
        rw [hidle.catalogRoot, hagrees.root, hroot']
      refine Prog.Triple.bind txnId_spec fun txn => Prog.Triple.of_imp fun _ => ?_
      refine Prog.Triple.bind (reply_unchanged_spec _ hidle.versions hidle.acknowledged hcatalog
        hcurrent) fun _ => ?_
      refine Prog.Triple.ret asserts_quiet fun s hs => ?_
      refine ⟨b', n + 1, _, ⟨⟨⟨hagrees.root, hfreed, hagrees.pending, hagrees.orphaned⟩, hcurrent,
        htrees, ?_, ?_, ?_, rfl⟩, outcomes, happlies, ?_⟩, hs⟩
      · change φ.catalogRoot = _
        rw [hidle.catalogRoot, hroot']
      · change φ.root = _
        rw [hidle.root, hroot']
      · simp only [List.length_append, hidle.versions, List.length_singleton]
      · simp only [List.map_append, outcome_replies]

/-- **The writer.** Whatever the batches and beside whatever the readers do, the invariant holds
at every moment, and after the batches the writer is idle with the jobs applied in order. -/
theorem run_spec (batches : List (List C.Request)) {w : Writer} (hidle : Idle C w b n φ) :
    Spec C (Quiet C lost b n φ) (run w (batches.map fun batch => batch.map C.apply))
      (AfterBatch C lost b.current φ batches.flatten) := by
  induction batches generalizing b n φ w with
  | nil =>
      refine Prog.Triple.ret asserts_quiet fun s hs => ?_
      exact ⟨b, n, φ, ⟨hidle, [], .nil _, (List.append_nil _).symm⟩, hs⟩
  | cons batch batches ih =>
      refine Prog.Triple.bind (processBatch_spec batch hidle) ?_
      rintro (e | w')
      · exact Prog.Triple.ret asserts_stopped fun s hs => hs
      · refine Prog.Triple.exists_pre fun b' => Prog.Triple.exists_pre fun n' =>
          Prog.Triple.exists_pre fun φ' => Prog.Triple.of_imp ?_
        rintro ⟨hidle', outcomes, happlies, hreplies⟩
        refine (ih hidle').mono (fun _ h => h) ?_
        rintro (e | w'') s hs
        · exact hs
        · obtain ⟨b'', n'', φ'', ⟨hidle'', outcomes', happlies', hreplies'⟩, hq⟩ := hs
          refine ⟨b'', n'', φ'', ⟨hidle'', outcomes ++ outcomes', ?_, ?_⟩, hq⟩
          · rw [List.flatten_cons]
            exact happlies.append happlies'
          · rw [hreplies', hreplies, List.append_assoc]

end Batch

end Edb.Txn
