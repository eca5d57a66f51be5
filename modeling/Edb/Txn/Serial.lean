import Edb.Txn.Recovery

/-!
# Group commit is serial execution

For a client whose jobs depend on the forest only through an abstraction of it (`Logical`), the
answers of the writer and the contents it ends with are those of a fold over the requests,
whatever the batches they came in. The key/value jobs are such a client, the abstraction being
the tree without its pages.
-/

namespace Edb.Txn

open Edb.BTree Edb.Lib

/-! ## Serial execution -/

/-- The outcome of a job and its effect depend on the forest only through `abs`. -/
structure Logical (C : Client) where
  /-- The logical contents. -/
  State : Type
  abs : Forest → State
  /-- What a request answers, and the contents it leaves if it succeeds. -/
  step : C.Request → State → Except (TxnError C.Reject) (C.Out × State)
  sim : ∀ {f}, C.Inv f → ∀ request, (C.apply request).wp (fun r l =>
    r = (step request (abs f)).map Prod.fst ∧
      ∀ out σ, step request (abs f) = .ok (out, σ) → abs l.toForest = σ) (.start f)

namespace Logical

variable {C : Client} (L : Logical C)

/-- The requests one at a time, in order: their outcomes, and the contents they leave. A rejected
request leaves the contents as they were. -/
def serial (σ : L.State) :
    List C.Request → List (Except (TxnError C.Reject) C.Out) × L.State
  | [] => ([], σ)
  | request :: requests =>
      match L.step request σ with
      | .ok (out, σ') => (.ok out :: (serial σ' requests).1, (serial σ' requests).2)
      | .error e => (.error e :: (serial σ requests).1, (serial σ requests).2)

/-- Applying the jobs is serial execution of the requests. -/
theorem serial_of_applies {f f' : Forest} {requests : List C.Request}
    {outcomes : List (Except (TxnError C.Reject) C.Out)} (hf : C.Inv f)
    (h : Applies C f requests outcomes f') :
    L.serial (L.abs f) requests = (outcomes, L.abs f') := by
  induction h with
  | nil => rfl
  | @ok f f' l request requests out outcomes hyields _ ih =>
      obtain ⟨hinv, -⟩ := hyields _ (C.keeps hf request) out rfl
      obtain ⟨hout, habs⟩ := hyields _ (L.sim hf request)
      cases hstep : L.step request (L.abs f) with
      | error e =>
          rw [hstep] at hout
          cases hout
      | ok r =>
          obtain ⟨out', σ⟩ := r
          rw [hstep] at hout
          obtain rfl : out = out' := Except.ok.inj hout
          obtain rfl := habs out σ hstep
          simp only [serial, hstep, ih hinv]
  | @rejected f f' l request requests e outcomes hyields _ ih =>
      obtain ⟨hout, -⟩ := hyields _ (L.sim hf request)
      cases hstep : L.step request (L.abs f) with
      | error e' =>
          rw [hstep] at hout
          cases hout
          simp only [serial, hstep, ih hf]
      | ok r =>
          rw [hstep] at hout
          cases hout

end Logical

/-! ## Rejections -/

section Rejections

variable {ε Out : Type} (name : Entry → Option Nat)

/-- A property of what a program of the writer returns, whatever the state. -/
abbrev Returns {α : Type} (x : WriterM ε Out α) (Q : α → Prop) : Prop :=
  Prog.Triple (WriterOp.exec name) ReaderStep (fun _ => True) (fun _ => True) x fun a _ => Q a

theorem returns_ret {α : Type} {a : α} {Q : α → Prop} (h : Q a) :
    Returns name (Prog.ret a : WriterM ε Out α) Q :=
  Prog.Triple.ret ⟨fun _ _ _ _ => trivial, fun _ _ => trivial⟩ fun _ _ => h

theorem returns_perform (op : WriterOp ε Out) : Returns name (Prog.perform op) fun _ => True :=
  Prog.Triple.perform ⟨fun _ _ _ _ => trivial, fun _ _ => trivial⟩
    (fun _ => ⟨fun _ _ _ _ => trivial, fun _ _ => trivial⟩) fun _ _ => trivial

theorem returns_bind {α β : Type} {x : WriterM ε Out α} {g : α → WriterM ε Out β} {P : α → Prop}
    {Q : β → Prop} (hx : Returns name x P) (hg : ∀ a, P a → Returns name (g a) Q) :
    Returns name (x >>= g) Q := by
  refine Prog.Triple.bind hx fun a => ?_
  exact fun s hs => hg a hs s trivial

/-- A mutation only adds to the superseded pages. -/
theorem supersede_freed (ctx : Ctx) (r : Except BTreeError Edit) :
    ∃ fr, (ctx.supersede r).2.freed = ctx.freed ++ fr := by
  cases r with
  | ok edit => exact ⟨edit.freed, rfl⟩
  | error e => exact ⟨[], (List.append_nil _).symm⟩

theorem retire_freed (ctx : Ctx) (r : Except BTreeError (List Nat)) :
    ∃ fr, (ctx.retire r).2.freed = ctx.freed ++ fr := by
  cases r with
  | ok pages => exact ⟨pages, rfl⟩
  | error e => exact ⟨[], (List.append_nil _).symm⟩

/-- An operation only adds to what the job has freed. -/
theorem CtxOp.run_freed (ctx : Ctx) (op : CtxOp) :
    Returns name (op.run ctx : WriterM ε Out _) fun o => ∃ fr, o.2.freed = ctx.freed ++ fr := by
  have hsame : ∃ fr, ctx.freed = ctx.freed ++ fr := ⟨[], (List.append_nil _).symm⟩
  have htree : ∀ (top : TreeOp) (g : Except BTreeError top.Res → Except BTreeError op.Res × Ctx),
      (∀ r, ∃ fr, (g r).2.freed = ctx.freed ++ fr) →
      Returns name (WriterM.tree top >>= fun r => Prog.ret (g r) : WriterM ε Out _) fun o =>
        ∃ fr, o.2.freed = ctx.freed ++ fr :=
    fun top g hg => returns_bind name (returns_perform name _) fun r _ => returns_ret name (hg r)
  cases op with
  | root => exact returns_ret name hsame
  | setRoot r => exact returns_ret name hsame
  | lookup r key => exact htree (.lookup r key) (fun o => (o, ctx)) fun _ => hsame
  | scan r lo hi => exact htree (.range r lo hi) (fun o => (o, ctx)) fun _ => hsame
  | insert r key value => exact htree (.insert r key value) ctx.supersede (supersede_freed ctx)
  | delete r key => exact htree (.delete r key) ctx.supersede (supersede_freed ctx)
  | createTree => exact htree .create (fun o => (o, ctx)) fun _ => hsame
  | freeTree r => exact htree (.pages r) ctx.retire (retire_freed ctx)

/-- A job only adds to what was freed before it. -/
theorem Job.run_freed {α : Type} (job : Job ε α) (ctx : Ctx) :
    Returns name (job.run ctx : WriterM ε Out _) fun o => ∃ fr, o.2.freed = ctx.freed ++ fr := by
  have hsame : ∃ fr, ctx.freed = ctx.freed ++ fr := ⟨[], (List.append_nil _).symm⟩
  induction job generalizing ctx with
  | ret a => exact returns_ret name hsame
  | fail e => exact returns_ret name hsame
  | call op k ih =>
      rw [Job.run]
      refine returns_bind name (CtxOp.run_freed name ctx op) ?_
      rintro ⟨r, ctx'⟩ ⟨fr, hfr⟩
      cases r with
      | error e => exact returns_ret name ⟨fr, hfr⟩
      | ok a =>
          refine (ih a ctx' ⟨[], (List.append_nil _).symm⟩).mono (fun _ h => h) ?_
          rintro o s ⟨fr', hfr'⟩
          exact ⟨fr ++ fr', by rw [hfr', hfr, List.append_assoc]⟩

/-- A job that is rejected, whatever it has done before, leaves the root and the superseded pages
of the batch as they were. -/
theorem applyJobs_rejected [Categorized ε] (w : Writer) (freed : List Nat)
    (outcomes : List (Except (TxnError ε) Out)) (job : Job ε Out) :
    Returns name (applyJobs w freed outcomes [job]) fun r => ∀ w' freed' e,
      r = .ok (w', freed', outcomes ++ [.error e]) →
        w'.root = w.root ∧ w'.pending = w.pending ∧ freed' = freed := by
  rw [applyJobs]
  refine returns_bind name (returns_perform name _) fun _ _ => ?_
  refine returns_bind name (Job.run_freed name job _) ?_
  rintro ⟨outcome, ctx⟩ ⟨fr, hfr⟩
  refine returns_bind name (returns_perform name _) fun recorded _ => ?_
  cases outcome with
  | ok out =>
      refine returns_ret name fun w' freed' e heq => ?_
      simp at heq
  | error e =>
      dsimp only
      split
      · refine returns_bind name (returns_perform name _) fun _ _ => returns_ret name ?_
        exact fun w' freed' e' heq => by cases heq
      · refine returns_ret name fun w' freed' e' heq => ?_
        simp only [Except.ok.injEq, Prod.mk.injEq] at heq
        obtain ⟨rfl, rfl, -⟩ := heq
        change ctx.freed = freed ++ fr at hfr
        refine ⟨rfl, rfl, ?_⟩
        rw [hfr, List.take_left']
        rfl

end Rejections

/-! ## The equivalence -/

section Equivalence

variable {C : Client}

/-- The jobs of a batch under way, and the state. -/
abbrev Client.Jobs (C : Client) :=
  WriterM C.Reject C.Out
    (Except (TxnError C.Reject)
      (Writer × List Nat × List (Except (TxnError C.Reject) C.Out))) × C.State

/-- What the jobs have returned, if they have. -/
def Client.Jobs.returned (c : C.Jobs) :
    Option (Writer × List Nat × List (Except (TxnError C.Reject) C.Out)) :=
  match c.1 with
  | .ret (.ok r) => some r
  | _ => none

theorem Client.Jobs.eq_of_returned {c : C.Jobs}
    {r : Writer × List Nat × List (Except (TxnError C.Reject) C.Out)} (h : c.returned = some r) :
    c = (.ret (.ok r), c.2) := by
  obtain ⟨p, s⟩ := c
  unfold returned at h
  split at h
  next heq =>
    cases h
    exact Prod.ext heq rfl
  next => cases h

/-- A database that has just been created, or opened after a crash. -/
def Client.Starts (C : Client) (s : C.State) (w : Writer) : Prop :=
  (∃ cacheBytes, C.create cacheBytes = .ok (s, w)) ∨ ∃ c fates cacheBytes, C.Life c ∧
    C.openDb (c.2.pager.backend.crash fates) cacheBytes = .ok (s, w)

/-- A state the writer may start from is one it has opened. -/
theorem Client.Starts.opened {s : C.State} {w : Writer} (h : C.Starts s w) :
    ∃ lost f, Opened C lost f s w := by
  rcases h with ⟨cacheBytes, hcreate⟩ | ⟨c, fates, cacheBytes, hlife, hopen⟩
  · obtain ⟨s', w', root, hcreate', hopened⟩ := create_opened C cacheBytes
    rw [hcreate] at hcreate'
    cases hcreate'
    exact ⟨_, _, hopened⟩
  · obtain ⟨s', w', f, lost, n, hopen', hopened, -⟩ := hlife.safe.reopens fates cacheBytes
    rw [hopen] at hopen'
    cases hopen'
    exact ⟨lost, f, hopened⟩

/-- The forest is the one the pager holds at the root. -/
structure ForestAt (C : Client) (p : Pager Node) (root : Nat) (f : Forest) : Prop where
  inv : C.Inv f
  at_root : f.root = root
  held : ∃ ts, Holding p ts f.trees
  contents : contents C.name (some root) p = f.contents C.name

theorem Quiet.forestAt {lost : List Nat} {b : Books} {n : Nat} {φ : Status C.Reject C.Out}
    {s : C.State} (h : Quiet C lost b n φ s) : ForestAt C s.pager b.current.root b.current :=
  have hkept := h.1.kept
  ⟨hkept.inv, rfl, ⟨b.trees, hkept.holding⟩,
    hkept.holding.contents_eq hkept.ok (C.named hkept.inv)⟩

/-- **Group commit is serial execution.** However the requests are cut into batches, the answers
and the contents are those of the requests one at a time. A rejected job, whatever it has done
before, leaves the root and the superseded pages of its batch as they were. -/
theorem group_commit_serial (L : Logical C) {s₀ s : C.State} {w₀ w : Writer}
    (hstart : C.Starts s₀ w₀) {batches : List (List C.Request)}
    (hrun : C.Reaches (C.program w₀ batches, s₀) (.ret (.ok w), s)) :
    (∃ f₀ f, ForestAt C s₀.pager w₀.root f₀ ∧ ForestAt C s.pager w.root f ∧
      L.serial (L.abs f₀) batches.flatten = (s.replies.map Reply.outcome, L.abs f)) ∧
    ∀ (w w' : Writer) (freed freed' : List Nat)
      (outcomes : List (Except (TxnError C.Reject) C.Out)) (request : C.Request)
      (e : TxnError C.Reject) (s s' : C.State),
      Prog.Reaches (WriterOp.exec C.name) ReaderStep
        (applyJobs w freed outcomes [C.apply request], s)
        (.ret (.ok (w', freed', outcomes ++ [.error e])), s') →
      w'.root = w.root ∧ w'.pending = w.pending ∧ freed' = freed := by
  constructor
  · obtain ⟨lost, f₀, ts, hreplies, hidle₀, hquiet₀⟩ := hstart.opened
    obtain ⟨b, n, φ, ⟨hidle, outcomes, happlies, houts⟩, hquiet⟩ :=
      (run_spec batches hidle₀ s₀ hquiet₀ _ hrun).2 _ rfl
    have h₀ := hquiet₀.forestAt
    have h := hquiet.forestAt
    rw [hidle₀.agrees.root] at h₀
    rw [hidle.agrees.root] at h
    refine ⟨f₀, b.current, h₀, h, ?_⟩
    rw [← hquiet.2] at houts
    change s.replies.map Reply.outcome = s₀.replies.map Reply.outcome ++ outcomes at houts
    rw [hreplies] at houts
    rw [houts]
    exact L.serial_of_applies h₀.inv happlies
  · intro w w' freed freed' outcomes request e s s' hreach
    exact (applyJobs_rejected C.name w freed outcomes (C.apply request) s trivial _ hreach).2 _ rfl
      w' freed' e rfl

end Equivalence

/-! ## The key/value jobs -/

namespace OpsJob

/-- A mutation of the tree, without its pages. -/
def mutate (t : TreeState) : Op → Except BTreeError TreeState
  | .put key value => t.insert key value
  | .delete key => (t.delete key).map fun t' => t'.getD t

/-- The tree is at `r`, the published root being that of `l₀`. -/
def Ends (l₀ : Ledger) :
    Except BTreeError TreeState → Except (TxnError Empty) Nat → Ledger → Prop
  | .ok t, o, l => ∃ r, o = .ok r ∧ l.trees = (Forest.single r t).trees ∧ l.root = l₀.root
  | .error e, o, _ => o = .error (.btree e)

theorem replace_single {r fresh : Nat} {l : Ledger} {t t' : TreeState}
    (h : l.trees = (Forest.single r t).trees) :
    ((l.retire r).add fresh t').trees = (Forest.single fresh t').trees := by
  funext r'
  change (if r' = fresh then some t' else if r' = r then none else l.trees r') = _
  rw [h]
  unfold Forest.single
  by_cases h₁ : r' = fresh <;> by_cases h₂ : r' = r <;> simp [h₁, h₂]

theorem applyOp_ends {r : Nat} {l : Ledger} {t : TreeState}
    (h : l.trees = (Forest.single r t).trees) (op : Op) :
    (applyOp r op).wp (Ends l (mutate t op)) l := by
  have ht : l.trees r = some t := by
    rw [h]
    exact if_pos rfl
  cases op with
  | put key value =>
      refine Job.wp_insert ht (fun fresh t' _ _ hins => ?_) fun e hins => ?_
      · rw [mutate, hins]
        exact ⟨fresh, rfl, replace_single h, rfl⟩
      · rw [mutate, hins]
        rfl
  | delete key =>
      refine Job.wp_delete ht (fun fresh t' _ _ hdel => ?_) (fun hdel => ?_) fun e hdel => ?_
      · rw [mutate, hdel]
        exact ⟨fresh, rfl, replace_single h, rfl⟩
      · rw [mutate, hdel]
        exact ⟨r, rfl, h, rfl⟩
      · rw [mutate, hdel]
        rfl

theorem foldlM_ends (ops : List Op) {r : Nat} {l : Ledger} {t : TreeState}
    (h : l.trees = (Forest.single r t).trees) :
    (ops.foldlM applyOp r).wp (Ends l (ops.foldlM mutate t)) l := by
  induction ops generalizing r l t with
  | nil => exact ⟨r, rfl, h, rfl⟩
  | cons op ops ih =>
      rw [List.foldlM_cons, List.foldlM_cons, Job.wp_bind]
      refine Job.wp_mono (applyOp_ends h op) ?_
      cases hop : mutate t op with
      | error e =>
          rintro o l' rfl
          rfl
      | ok t' =>
          rintro o l' ⟨r', rfl, htrees, hroot⟩
          refine Job.wp_mono (ih htrees) ?_
          intro o' l'' hends
          change Ends l (ops.foldlM mutate t') o' l''
          cases hfold : ops.foldlM mutate t' with
          | error e =>
              rw [hfold] at hends
              exact hends
          | ok t'' =>
              rw [hfold] at hends
              obtain ⟨r'', ho, htrees', hroot'⟩ := hends
              exact ⟨r'', ho, htrees', hroot'.trans hroot⟩

/-- A list of mutations of the tree, without its pages. -/
def step (ops : List Op) (t : TreeState) : Except BTreeError TreeState := do
  validate ops
  ops.foldlM mutate t

/-- The job ends as the mutations of the tree do. -/
theorem apply_ends (ops : List Op) {f : Forest} {t : TreeState} (hf : f = Forest.single f.root t) :
    (apply ops).wp (fun r l => r = ((step ops t).map fun _ => ()).mapError .btree ∧
      ∀ t', step ops t = .ok t' → l.trees l.root = some t') (.start f) := by
  have htrees : (Ledger.start f).trees = (Forest.single f.root t).trees := by
    rw [← hf]
    rfl
  unfold apply
  rw [Job.wp_bind]
  cases hcheck : validate ops with
  | error e =>
      have hstep : step ops t = .error e := by
        unfold step
        rw [hcheck]
        rfl
      rw [hstep]
      exact ⟨rfl, fun _ h => by cases h⟩
  | ok u =>
      -- the checks passed, so the edits run one after another from the published root
      have hstep : step ops t = ops.foldlM mutate t := by
        unfold step
        rw [hcheck]
        rfl
      change (Job.root >>= _ : Job Empty Unit).wp _ _
      rw [Job.wp_bind]
      refine Job.wp_root ?_
      rw [Job.wpThen_ok, Job.wp_bind]
      refine Job.wp_mono (foldlM_ends ops htrees) ?_
      intro o l hends
      rw [hstep]
      cases hfold : ops.foldlM mutate t with
      | error e =>
          rw [hfold] at hends
          obtain rfl : o = .error (.btree e) := hends
          exact ⟨rfl, fun _ h => by cases h⟩
      | ok t' =>
          rw [hfold] at hends
          obtain ⟨r, rfl, hl, -⟩ := hends
          refine Job.wp_setRoot ⟨rfl, ?_⟩
          rintro t'' ⟨⟩
          change l.trees r = some t'
          rw [hl]
          exact if_pos rfl

end OpsJob

/-- A key/value job depends on the tree without its pages. -/
def kvLogical : Logical kvClient where
  State := Option TreeState
  abs := fun f => f.trees f.root
  step := fun ops σ => σ.elim (.ok ((), none)) fun t =>
    ((OpsJob.step ops t).map fun t' => ((), some t')).mapError .btree
  sim := by
    rintro f ⟨t, ht⟩ ops
    have htrees : f.trees f.root = some t := by
      rw [ht]
      exact if_pos rfl
    refine Job.wp_mono (OpsJob.apply_ends ops ht) ?_
    rintro r l ⟨hr, hl⟩
    rw [htrees, hr]
    refine ⟨?_, fun out σ hstep => ?_⟩
    · change Except.mapError _ _ = Except.map _ (Except.mapError _ _)
      cases OpsJob.step ops t <;> rfl
    · change Except.mapError _ (Except.map _ (OpsJob.step ops t)) = _ at hstep
      cases hfold : OpsJob.step ops t with
      | error e =>
          rw [hfold] at hstep
          cases hstep
      | ok t' =>
          rw [hfold] at hstep
          cases hstep
          exact hl t' hfold

/-! ### Two batches, and a request that is rejected -/

/-- A put of a value that does not fit a page. -/
def oversized : List Op := [.put [2] (List.replicate 3000 0)]

/-- Three requests in one batch, the second of them oversized, and one in the next. -/
def kvRequests : List (List (List Op)) :=
  [[[.put [1] [7]], oversized, [.put [3] [9], .delete [1]]], [[.put [4] [1]]]]

/-- The database after the writer has processed them. -/
def kvServed : kvClient.Config :=
  Prog.advance (WriterOp.exec kvClient.name) 42
    (kvClient.program kvOpened.2 kvRequests, kvOpened.1)

instance : DecidableEq kvClient.Reject := inferInstanceAs (DecidableEq Empty)

instance : DecidableEq kvClient.Out := inferInstanceAs (DecidableEq Unit)

theorem kvServed_returned :
    kvServed.returned = some { root := 6, pending := [(3, [5])], orphaned := [] } ∧
      kvServed.2.replies.map Reply.outcome =
        [.ok (), .error (.btree (.entryTooLarge 3005 2034)), .ok (), .ok ()] := by
  decide +kernel

/-- The first request of the batch, and then the one that is rejected. -/
def kvFirst : kvClient.Jobs :=
  Prog.advance (WriterOp.exec kvClient.name) 3
    (applyJobs kvOpened.2 [] [] [kvClient.apply [.put [1] [7]]], kvOpened.1)

def kvRejected : kvClient.Jobs :=
  Prog.advance (WriterOp.exec kvClient.name) 2
    (applyJobs { root := 3, pending := [], orphaned := [] } [2] [.ok ()]
      [kvClient.apply oversized], kvFirst.2)

theorem kvRejected_returned : kvRejected.returned =
    some ({ root := 3, pending := [], orphaned := [] }, [2],
      [.ok ()] ++ [.error (.btree (.entryTooLarge 3005 2034))]) := by
  decide +kernel

/-- The requests in one batch are answered as one after the other, and the one that is rejected
has left what the first has done. -/
theorem group_commit_serial_put :
    (∃ f₀ f, ForestAt kvClient kvOpened.1.pager kvOpened.2.root f₀ ∧
      ForestAt kvClient kvServed.2.pager 6 f ∧
      kvLogical.serial (kvLogical.abs f₀) kvRequests.flatten =
        ([.ok (), .error (.btree (.entryTooLarge 3005 2034)), .ok (), .ok ()],
          kvLogical.abs f)) ∧
    ∃ w' freed', kvRejected.returned = some (w', freed',
        [.ok ()] ++ [.error (.btree (.entryTooLarge 3005 2034))]) ∧
      w'.root = 3 ∧ w'.pending = [] ∧ freed' = [2] := by
  obtain ⟨hreturned, hreplies⟩ := kvServed_returned
  have hreached : kvClient.Reaches (kvClient.program kvOpened.2 kvRequests, kvOpened.1) kvServed :=
    Prog.reaches_advance 42 _
  rw [Client.Config.eq_of_returned hreturned] at hreached
  obtain ⟨hserial, hrejected⟩ :=
    group_commit_serial kvLogical (.inl ⟨0, kvOpened_created⟩) hreached
  rw [hreplies] at hserial
  refine ⟨hserial, _, _, kvRejected_returned, ?_⟩
  have hjobs : Prog.Reaches (WriterOp.exec kvClient.name) ReaderStep _ kvRejected :=
    Prog.reaches_advance 2 _
  rw [Client.Jobs.eq_of_returned kvRejected_returned] at hjobs
  exact hrejected _ _ _ _ _ _ _ _ _ hjobs

end Edb.Txn
