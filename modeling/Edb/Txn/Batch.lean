import Edb.Txn.Ensures
import Edb.Txn.Invariant

/-!
# The writer keeps the invariant

Each program of the writer, specified beside any steps of the readers. `Quiet` is the assertion
between two operations; while a job runs, `Working` keeps the pager where the job began.

Along the way the writer's answers are those of `Applies`: the jobs applied one after the other,
a rejected one leaving the forest as it was.
-/

namespace Edb.Txn

open Edb.BTree Edb.Lib

/-! ## Assertions -/

/-- What readers leave alone, beside the pages. -/
structure Status (ε Out : Type) where
  catalogRoot : Option Nat
  txnId : Nat
  /-- The published version. -/
  root : Option Nat
  published : Nat
  versions : List Contents
  acknowledged : Nat
  replies : List (Reply ε Out)

def Shared.status {ε Out : Type} (s : Shared ε Out) : Status ε Out where
  catalogRoot := s.pager.metadata.catalogRoot
  txnId := s.pager.txnId
  root := s.registry.root
  published := s.registry.txnId
  versions := s.versions
  acknowledged := s.acknowledged
  replies := s.replies

section Assertions

variable (C : Client) (lost : List Nat)

/-- The writer at rest between two operations. -/
def Quiet (b : Books) (n : Nat) (φ : Status C.Reject C.Out) (s : Shared C.Reject C.Out) : Prop :=
  Steady C lost b n s.pager s ∧ s.status = φ

/-- The writer at work on a job it began at the pager `p`. -/
def Working (p : Pager Node) (b : Books) (n : Nat) (φ : Status C.Reject C.Out)
    (R : Pager Node → Prop) (s : Shared C.Reject C.Out) : Prop :=
  Steady C lost b n p s ∧ R s.pager ∧ s.status = φ

/-- The specification of a program of the writer, beside its readers. -/
abbrev Spec {α : Type} (P : Shared C.Reject C.Out → Prop) (x : WriterM C.Reject C.Out α)
    (Q : α → Shared C.Reject C.Out → Prop) : Prop :=
  Prog.Triple (WriterOp.exec C.name) ReaderStep (Safe C) P x Q

/-- An assertion of the writer, beside its readers. -/
abbrev Asserts (P : Shared C.Reject C.Out → Prop) : Prop := Prog.Assertion ReaderStep (Safe C) P

/-- A relation that holds while pages are handed out and read, `p` being where it began. -/
structure Extending (p : Pager Node) (R : Pager Node → Prop) : Prop where
  grows : ∀ q, R q → ∃ new, Pager.Grows p q new
  reads : ∀ q q', R q → Pager.Reads q q' → R q'

variable {C lost} {b : Books} {n : Nat} {φ : Status C.Reject C.Out} {p : Pager Node}
variable {R : Pager Node → Prop} {s s' : Shared C.Reject C.Out}

/-- A reader changes nothing of the status the writer keeps. -/
theorem ReaderStep.status (hstep : ReaderStep s s') (hok : s.pager.Ok) : s'.status = s.status := by
  have hlatest := hstep.latest
  obtain ⟨hversions, hack, hreplies⟩ := hstep.record
  obtain ⟨c, hc⟩ := (hstep.reads hok).same
  unfold Shared.status
  rw [hc, hversions, hack, hreplies, hstep.txnId, show s'.registry.root = s.registry.root from
    congrArg Snapshot.root hlatest]

/-- Being quiet survives the steps of the readers. -/
theorem asserts_quiet : Asserts C (Quiet C lost b n φ) := by
  refine ⟨?_, ?_⟩
  · rintro s s' hstep ⟨hsteady, hstatus⟩
    have hok := hsteady.kept.ok
    exact ⟨(hsteady.reader hstep).reads (hstep.reads hok), (hstep.status hok).trans hstatus⟩
  · rintro s ⟨hsteady, -⟩
    exact hsteady.safe (.refl hsteady.kept.ok)

/-- So does a job under way, when what it asserts of the pager survives growth. -/
theorem asserts_working (hR : Extending p R) : Asserts C (Working C lost p b n φ R) := by
  refine ⟨?_, ?_⟩
  · rintro s s' hstep ⟨hsteady, hr, hstatus⟩
    obtain ⟨new, hg⟩ := hR.grows _ hr
    exact ⟨hsteady.reader hstep, hR.reads _ _ hr (hstep.reads hg.ok),
      (hstep.status hg.ok).trans hstatus⟩
  · rintro s ⟨hsteady, hr, -⟩
    obtain ⟨new, hg⟩ := hR.grows _ hr
    exact hsteady.safe hg

end Assertions

/-! ## A job -/

/-- What the job may end with, whichever fresh roots it gets. -/
def Job.Yields {ε α : Type} (job : Job ε α) (l : Ledger) (r : Except (TxnError ε) α)
    (l' : Ledger) : Prop := ∀ Q : Except (TxnError ε) α → Ledger → Prop, job.wp Q l → Q r l'

section Jobs

variable {C : Client} {lost : List Nat} {b : Books} {n : Nat} {φ : Status C.Reject C.Out}
variable {p : Pager Node} {freed : List Nat}

theorem fallible_tree {ε Out : Type} (op : TreeOp) (s : Shared ε Out) :
    s.fallible op.run = ((op.outcome s.pager).1, { s with pager := (op.outcome s.pager).2 }) := by
  unfold Shared.fallible TreeOp.outcome
  cases op.run s.pager <;> rfl

/-- An operation of the write context, by its outcome. -/
theorem CtxOp.run_spec (ctx : Ctx) (op : CtxOp) {P : Shared C.Reject C.Out → Prop}
    {Q : Except BTreeError op.Res × Ctx → Shared C.Reject C.Out → Prop} (hP : Asserts C P)
    (hQ : ∀ r, Asserts C (Q r)) (hexec : ∀ s, P s →
      Q (op.outcome ctx s.pager).1 { s with pager := (op.outcome ctx s.pager).2 }) :
    Spec C P (op.run ctx) Q := by
  -- a tree operation, and what the context makes of its result
  have htree : ∀ (top : TreeOp) (g : Except BTreeError top.Res → Except BTreeError op.Res × Ctx),
      (∀ s, P s → Q (g (top.outcome s.pager).1) { s with pager := (top.outcome s.pager).2 }) →
      Spec C P (WriterM.tree top >>= fun r => Prog.ret (g r)) Q := by
    intro top g h
    refine Prog.Triple.bind (Prog.Triple.perform (Q := fun r s => Q (g r) s) hP
      (fun r => hQ (g r)) fun s hs => ?_) fun r => Prog.Triple.ret (hQ (g r)) fun _ h => h
    change Q (g (s.fallible top.run).1) (s.fallible top.run).2
    rw [fallible_tree]
    exact h s hs
  cases op with
  | root => exact Prog.Triple.ret hP hexec
  | setRoot r => exact Prog.Triple.ret hP hexec
  | lookup r key => exact htree (.lookup r key) (fun o => (o, ctx)) hexec
  | scan r lo hi => exact htree (.range r lo hi) (fun o => (o, ctx)) hexec
  | insert r key value => exact htree (.insert r key value) ctx.supersede hexec
  | delete r key => exact htree (.delete r key) ctx.supersede hexec
  | createTree => exact htree .create (fun o => (o, ctx)) hexec
  | freeTree r => exact htree (.pages r) ctx.retire hexec

/-- A job has come to the ledger `l`, the batch having superseded `freed` before. -/
def JobAt (p : Pager Node) (b : Books) (freed : List Nat) (l : Ledger) (ctx : Ctx)
    (q : Pager Node) : Prop :=
  ctx.root = l.root ∧ ∃ ts new fr, Running p b.current b.trees l q ts new fr ∧
    ctx.freed = freed ++ fr

/-- A job has failed. -/
def JobFailed (p : Pager Node) (freed : List Nat) (ctx : Ctx) (q : Pager Node) : Prop :=
  ∃ new fr, Pager.Grows p q new ∧ ctx.freed = freed ++ fr

def JobEnd (p : Pager Node) (b : Books) (freed : List Nat) {ε α : Type}
    (r : Except (TxnError ε) α) (l : Ledger) (ctx : Ctx) (q : Pager Node) : Prop :=
  match r with
  | .ok _ => JobAt p b freed l ctx q
  | .error _ => JobFailed p freed ctx q

theorem extending_jobAt (l : Ledger) (ctx : Ctx) : Extending p (JobAt p b freed l ctx) := by
  refine ⟨?_, ?_⟩
  · rintro q ⟨-, ts, new, fr, hrun, -⟩
    exact ⟨new, hrun.grows⟩
  · rintro q q' ⟨hroot, ts, new, fr, hrun, hfreed⟩ hr
    exact ⟨hroot, ts, new, fr, hrun.reads hr, hfreed⟩

theorem extending_jobFailed (ctx : Ctx) : Extending p (JobFailed p freed ctx) := by
  refine ⟨?_, ?_⟩
  · rintro q ⟨new, fr, hg, -⟩
    exact ⟨new, hg⟩
  · rintro q q' ⟨new, fr, hg, hfreed⟩ hr
    exact ⟨new ++ [], fr, hg.trans hr.grows, hfreed⟩

theorem extending_jobEnd {ε α : Type} (r : Except (TxnError ε) α) (l : Ledger) (ctx : Ctx) :
    Extending p (JobEnd p b freed r l ctx) := by
  cases r with
  | ok a => exact extending_jobAt l ctx
  | error e => exact extending_jobFailed ctx

theorem extending_follows {α : Type} (out : Except BTreeError (α × Ledger))
    (r : Except BTreeError α × Ctx) :
    Extending p (fun q => Follows p b.current b.trees freed (some out) (r, q)) := by
  cases out with
  | ok al =>
      obtain ⟨hgrows, hreads⟩ : Extending p (JobAt p b freed al.2 r.2) := extending_jobAt al.2 r.2
      exact ⟨fun q hq => hgrows q hq.2, fun q q' hq hr => ⟨hq.1, hreads q q' hq.2 hr⟩⟩
  | error e =>
      obtain ⟨hgrows, hreads⟩ : Extending p (JobFailed p freed r.2) := extending_jobFailed r.2
      exact ⟨fun q hq => hgrows q hq.2, fun q q' hq hr => ⟨hq.1, hreads q q' hq.2 hr⟩⟩

/-- Pages handed out change nothing of the status. -/
theorem status_grows {ε Out : Type} {s : Shared ε Out} {q : Pager Node} {new new' : List Nat}
    (hg : Pager.Grows p s.pager new) (hg' : Pager.Grows p q new') :
    Shared.status { s with pager := q } = s.status := by
  unfold Shared.status
  dsimp only
  rw [hg.txn, hg'.txn, hg.header, hg'.header]

/-- An assertion about the origins and the pages that the operations of a job begun at `p` carry
along. -/
structure Carried (p : Pager Node) (b : Books) (G : Origin → Ledger → Pager Node → Prop) :
    Prop where
  reads : ∀ {origin l q q'}, G origin l q → Pager.Reads q q' → G origin l q'
  step : ∀ {origin : Origin} {l l' : Ledger} {ctx : Ctx} {q : Pager Node} {ts : List PageTree}
    {new fr : List Nat} {fresh : Nat} {op : CtxOp} {a : op.Res},
    Running p b.current b.trees l q ts new fr → G origin l q →
    l.exec fresh op = some (.ok (a, l')) → (op.outcome ctx q).1.1 = .ok a →
    G (op.descend origin a) l' (op.outcome ctx q).2

theorem Extending.and {G : Pager Node → Prop} (h : Extending p R)
    (hG : ∀ q q', G q → Pager.Reads q q' → G q') : Extending p fun q => R q ∧ G q :=
  ⟨fun q hq => h.grows q hq.1, fun q q' hq hr => ⟨h.reads q q' hq.1 hr, hG q q' hq.2 hr⟩⟩

variable {G : Origin → Ledger → Pager Node → Prop} {origin : Origin}

/-- A job that ends with an error. -/
theorem Job.failed_spec {α : Type} (job : Job C.Reject α) {l : Ledger} {ctx : Ctx}
    {e : TxnError C.Reject} (hyields : (job.traced origin).Yields l (.error e) l) :
    Spec C (Working C lost p b n φ (JobFailed p freed ctx)) (Prog.ret (.error e, ctx)) fun o s =>
      ∃ origin' l', (job.traced origin).Yields l (o.1.map fun a => (a, origin')) l' ∧
        Working C lost p b n φ (fun q => JobEnd p b freed o.1 l' o.2 q ∧
          (o.1.isOk = true → G origin' l' q)) s := by
  refine Prog.Triple.ret (asserts_working (extending_jobFailed ctx)) ?_
  rintro s ⟨hsteady, hfailed, hstatus⟩
  exact ⟨origin, l, hyields, hsteady, ⟨hfailed, fun h => nomatch h⟩, hstatus⟩

/-- Running a job that works on current trees only: it ends as its ledger does, with what its
operations carry along. -/
theorem Job.traced_spec {α : Type} (job : Job C.Reject α) (origin : Origin) {l : Ledger} {ctx : Ctx}
    (hG : Carried p b G) (hsound : job.wp (fun _ _ => True) l) :
    Spec C (Working C lost p b n φ fun q => JobAt p b freed l ctx q ∧ G origin l q)
      (job.run ctx) fun o s => ∃ origin' l',
        (job.traced origin).Yields l (o.1.map fun a => (a, origin')) l' ∧
        Working C lost p b n φ (fun q => JobEnd p b freed o.1 l' o.2 q ∧
          (o.1.isOk = true → G origin' l' q)) s := by
  have hat : ∀ (origin : Origin) (l : Ledger) (ctx : Ctx),
      Extending p fun q => JobAt p b freed l ctx q ∧ G origin l q := fun _ l ctx =>
    (extending_jobAt l ctx).and fun _ _ => hG.reads
  induction job generalizing l ctx origin with
  | ret a =>
      refine Prog.Triple.ret (asserts_working (hat origin l ctx)) ?_
      rintro s ⟨hsteady, ⟨hat, hg⟩, hstatus⟩
      exact ⟨origin, l, fun _ hQ => hQ, hsteady, ⟨hat, fun _ => hg⟩, hstatus⟩
  | fail e =>
      refine (Job.failed_spec (.fail e) fun _ hQ => hQ).mono ?_ fun _ _ h => h
      rintro s ⟨hsteady, ⟨⟨-, ts, new, fr, hrun, hfreed⟩, -⟩, hstatus⟩
      exact ⟨hsteady, ⟨new, fr, hrun.grows, hfreed⟩, hstatus⟩
  | call op k ih =>
      -- after the operation, the ledger has taken a step with some fresh root
      rw [Job.run]
      refine Prog.Triple.bind (CtxOp.run_spec ctx op
        (Q := fun o s => ∃ fresh out, (firstDataPage ≤ fresh ∧ l.trees fresh = none ∧
          l.exec fresh op = some out) ∧ Working C lost p b n φ
            (fun q => Follows p b.current b.trees freed (some out) (o, q) ∧
              ∀ a l', out = .ok (a, l') → G (op.descend origin a) l' q) s)
        (asserts_working (hat origin l ctx)) (fun o => ?_) ?_) ?_
      · refine .of_exists fun fresh => .of_exists fun out => .of_imp fun _ => ?_
        exact asserts_working ((extending_follows out o).and
          fun _ _ hg hr a l' hout => hG.reads (hg a l' hout) hr)
      · rintro s ⟨hsteady, ⟨⟨hroot, ts, new, fr, hrun, hfreed⟩, hg⟩, hstatus⟩
        obtain ⟨fresh, hlo, hnone, hfollows⟩ := hrun.outcome hroot hfreed op
        have hstep := hsound fresh hlo hnone
        cases hexec : l.exec fresh op with
        | none =>
            rw [hexec] at hstep
            exact hstep.elim
        | some out =>
            rw [hexec] at hfollows
            obtain ⟨new', hgrows⟩ := (extending_follows out _).grows _ hfollows
            refine ⟨fresh, out, ⟨hlo, hnone, hexec⟩, hsteady.setPager _, ⟨hfollows, ?_⟩,
              (status_grows hrun.grows hgrows).trans hstatus⟩
            rintro a l' rfl
            exact hG.step hrun hg hexec hfollows.1
      · rintro ⟨r, ctx'⟩ s ⟨fresh, out, ⟨hlo, hnone, hexec⟩, hsteady, ⟨hfollows, hg⟩, hstatus⟩ c hc
        have hstep := hsound fresh hlo hnone
        rw [hexec] at hstep
        cases out with
        | ok al =>
            obtain ⟨rfl, hat⟩ := hfollows
            obtain ⟨hI, hend⟩ := ih al.1 _ hstep s ⟨hsteady, ⟨hat, hg al.1 al.2 rfl⟩, hstatus⟩ c hc
            refine ⟨hI, fun o ho => ?_⟩
            obtain ⟨origin', l', hyields, hworking⟩ := hend o ho
            refine ⟨origin', l', fun Q hQ => hyields Q ?_, hworking⟩
            have := hQ fresh hlo hnone
            rwa [hexec] at this
        | error e =>
            obtain ⟨rfl, hfailed⟩ := hfollows
            refine Job.failed_spec (call op k) (fun Q hQ => ?_) s ⟨hsteady, hfailed, hstatus⟩ c hc
            have := hQ fresh hlo hnone
            rwa [hexec] at this

/-- Running a job that works on current trees only: it ends as its ledger does. -/
theorem Job.run_spec {α : Type} (job : Job C.Reject α) {l : Ledger} {ctx : Ctx}
    (hsound : job.wp (fun _ _ => True) l) :
    Spec C (Working C lost p b n φ (JobAt p b freed l ctx)) (job.run ctx) fun o s =>
      ∃ l', job.Yields l o.1 l' ∧ Working C lost p b n φ (JobEnd p b freed o.1 l' o.2) s := by
  have hG : Carried p b fun _ _ _ => True := ⟨fun _ _ => trivial, fun _ _ _ _ => trivial⟩
  have hspec : Spec C (Working C lost p b n φ fun q => JobAt p b freed l ctx q ∧ True)
      (job.run ctx) _ := Job.traced_spec job some hG hsound
  refine hspec.mono ?_ ?_
  · rintro s ⟨hsteady, hat, hstatus⟩
    exact ⟨hsteady, ⟨hat, trivial⟩, hstatus⟩
  · rintro ⟨r, ctx'⟩ s ⟨origin', l', hyields, hsteady, ⟨hend, -⟩, hstatus⟩
    refine ⟨l', fun Q hQ => ?_, hsteady, hend, hstatus⟩
    have hr := hyields _ (Job.wp_traced.2 hQ)
    cases r <;> exact hr

end Jobs

/-! ## The jobs of a batch -/

/-- The jobs applied one after the other: their outcomes, and the forest they end with. A job that
fails leaves the forest as it was. -/
inductive Applies (C : Client) :
    Forest → List C.Request → List (Except (TxnError C.Reject) C.Out) → Forest → Prop
  | nil (f : Forest) : Applies C f [] [] f
  | ok {f f' : Forest} {l : Ledger} {request : C.Request} {requests : List C.Request} {out : C.Out}
      {outcomes : List (Except (TxnError C.Reject) C.Out)} :
      (C.apply request).Yields (.start f) (.ok out) l →
      Applies C l.toForest requests outcomes f' →
      Applies C f (request :: requests) (.ok out :: outcomes) f'
  | rejected {f f' : Forest} {l : Ledger} {request : C.Request} {requests : List C.Request}
      {e : TxnError C.Reject} {outcomes : List (Except (TxnError C.Reject) C.Out)} :
      (C.apply request).Yields (.start f) (.error e) l → Applies C f requests outcomes f' →
      Applies C f (request :: requests) (.error e :: outcomes) f'

/-- Two batches applied one after another are one batch. -/
theorem Applies.append {C : Client} {f f' f'' : Forest} {requests requests' : List C.Request}
    {outcomes outcomes' : List (Except (TxnError C.Reject) C.Out)}
    (h : Applies C f requests outcomes f') (h' : Applies C f' requests' outcomes' f'') :
    Applies C f (requests ++ requests') (outcomes ++ outcomes') f'' := by
  induction h with
  | nil => exact h'
  | ok hyields _ ih => exact .ok hyields (ih h')
  | rejected hyields _ ih => exact .rejected hyields (ih h')

namespace Books

/-- The books are those of the writer, whose batch has superseded `freed` so far. -/
structure Agrees (b : Books) (w : Writer) (freed : List Nat) : Prop where
  root : b.current.root = w.root
  freed : b.freed = freed
  pending : b.pending = w.pending
  orphaned : b.orphaned = w.orphaned

/-- The batch has changed nothing yet, or superseded the durable root. -/
def Moved (b : Books) : Prop :=
  (b.current = b.durable ∧ b.trees = b.durableTrees ∧ b.freed = []) ∨ b.durable.root ∈ b.freed

/-- The same durable version. -/
structure Since (b b' : Books) : Prop where
  durable : b'.durable = b.durable
  durableTrees : b'.durableTrees = b.durableTrees

end Books

section Apply

variable {C : Client} {lost : List Nat} {b : Books} {n : Nat} {φ : Status C.Reject C.Out}
variable {p : Pager Node} {s : Shared C.Reject C.Out}

theorem Client.sound (C : Client) {f : Forest} (hf : C.Inv f) (request : C.Request) :
    (C.apply request).wp (fun _ _ => True) (.start f) :=
  Job.wp_mono (C.keeps hf request) fun _ _ _ => trivial

/-- What a job leaves when its allocations have been taken. -/
def AfterJob (C : Client) (lost : List Nat) (b : Books) (n : Nat) (φ : Status C.Reject C.Out)
    (l : Ledger) (ctx : Ctx) (recorded : List Nat) :
    Except (TxnError C.Reject) C.Out → Shared C.Reject C.Out → Prop
  | .ok _, s => ∃ b' : Books, (b'.current = l.toForest ∧ b.Since b' ∧ b'.Moved ∧
      b'.Agrees { root := ctx.root, pending := b.pending, orphaned := b.orphaned } ctx.freed) ∧
      Quiet C lost b' n φ s
  | .error _, s => ctx.freed.take b.freed.length = b.freed ∧
      Quiet C lost { b with orphaned := b.orphaned ++ recorded } n φ s

theorem asserts_afterJob (l : Ledger) (ctx : Ctx) (recorded : List Nat)
    (r : Except (TxnError C.Reject) C.Out) :
    Asserts C (AfterJob C lost b n φ l ctx recorded r) := by
  cases r with
  | ok out => exact .of_exists fun b' => .of_imp fun _ => asserts_quiet
  | error e => exact .of_imp fun _ => asserts_quiet

/-- The books after a job that succeeded. -/
theorem Books.Moved.job (hmoved : b.Moved) {l : Ledger} {q : Pager Node} {ts : List PageTree}
    {new fr : List Nat} (hrun : Running p b.current b.trees l q ts new fr)
    (hstep : b.current.root ∈ l.retired ∨ (l.root = b.current.root ∧ l.touched = false)) :
    Moved { b with current := l.toForest, trees := ts, freed := b.freed ++ fr } := by
  rcases hstep with hretired | ⟨hroot, huntouched⟩
  · refine .inr ?_
    rcases hmoved with ⟨hcurrent, -, -⟩ | hmem
    · exact List.mem_append_right _ (hrun.retired _ (by rw [← hcurrent]; exact hretired))
    · exact List.mem_append_left _ hmem
  · obtain ⟨rfl, -, rfl, htrees⟩ := hrun.untouched huntouched
    have hcurrent : l.toForest = b.current := by
      cases hf : b.current with
      | mk root trees =>
          rw [hf] at hroot htrees
          cases hl : l.toForest
          simp_all
    rcases hmoved with ⟨hc, ht, hfreed⟩ | hmem
    · exact .inl ⟨hcurrent.trans hc, ht, by rw [List.append_nil]; exact hfreed⟩
    · exact .inr (List.mem_append_left _ hmem)

/-- Recording ends with the job done: applied to the books, or undone with its pages recorded. -/
theorem takeAllocRecording_spec (hmoved : b.Moved) (request : C.Request)
    (o : Except (TxnError C.Reject) C.Out × Ctx) :
    Spec C (fun s => ∃ p : Pager Node, p.allocLog = some [] ∧ ∃ l,
        (C.apply request).Yields (.start b.current) o.1 l ∧
          Working C lost p b n φ (JobEnd p b b.freed o.1 l o.2) s)
      WriterM.takeAllocRecording fun recorded s => ∃ l,
        (C.apply request).Yields (.start b.current) o.1 l ∧
          AfterJob C lost b n φ l o.2 recorded o.1 s := by
  refine Prog.Triple.perform ?_ ?_ ?_
  · exact .of_exists fun p => .of_imp fun _ => .of_exists fun l => .of_imp fun _ =>
      asserts_working (extending_jobEnd o.1 l o.2)
  · exact fun recorded => .of_exists fun l => .of_imp fun _ => asserts_afterJob l o.2 recorded o.1
  · rintro s ⟨p, hlog, l, hyields, hsteady, hend, hstatus⟩
    refine ⟨l, hyields, ?_⟩
    obtain ⟨r, ctx⟩ := o
    cases r with
    | ok out =>
        obtain ⟨hroot, ts, new, fr, hrun, hfreed⟩ := hend
        obtain ⟨hinv, hstep⟩ := hyields _ (C.keeps hsteady.kept.inv request) out rfl
        refine ⟨{ b with current := l.toForest, trees := ts, freed := b.freed ++ fr },
          ⟨rfl, ⟨rfl, rfl⟩, hmoved.job hrun hstep, hroot.symm, hfreed.symm, rfl, rfl⟩, ?_,
          (status_grows hrun.grows hrun.grows).trans hstatus⟩
        refine Steady.setPager (hsteady.move ((hsteady.kept.job hrun hinv).setLog none) rfl
          hrun.grows.view (le_of_eq hrun.grows.txn.symm) (fun id hid => ?_) rfl) _
        rcases List.mem_append.mp hid with hid | hid
        · rcases List.mem_append.mp (hrun.pages.symm.subset (List.mem_append_left _ hid))
            with hid | hid
          · exact List.mem_append_left _ hid
          · exact List.mem_append_right _ (List.mem_append_right _ hid)
        · exact List.mem_append_right _ (List.mem_append_left _ hid)
    | error e =>
        obtain ⟨new, fr, hg, hfreed⟩ := hend
        -- the log has the pages of the failed job, which become orphans
        have hrecorded : s.pager.allocLog.getD [] = new := by
          rw [hg.log, hlog]
          rfl
        refine ⟨?_, ?_, (status_grows hg hg).trans hstatus⟩
        · change ctx.freed = _ at hfreed
          change ctx.freed.take b.freed.length = b.freed
          rw [hfreed, List.take_left']
          rfl
        · change Steady C lost { b with orphaned := b.orphaned ++ s.pager.allocLog.getD [] } n _ _
          rw [hrecorded]
          exact Steady.setPager (hsteady.move ((hsteady.kept.orphan hg).setLog none) rfl hg.view
            (le_of_eq hg.txn.symm) (fun _ hid => hid) rfl) _

/-- Where recording begins, a job does. -/
theorem Quiet.begin (h : Quiet C lost b n φ s) :
    Working C lost s.pager.beginAllocRecording b n φ
      (JobAt s.pager.beginAllocRecording b b.freed (.start b.current)
        { root := b.current.root, freed := b.freed })
      { s with pager := s.pager.beginAllocRecording } := by
  obtain ⟨hsteady, hstatus⟩ := h
  refine ⟨?_, ⟨rfl, b.trees, [], [], ?_, ?_⟩, hstatus⟩
  · exact Steady.setPager (hsteady.move (hsteady.kept.setLog (some [])) rfl (fun _ _ => rfl)
      (le_refl _) (fun _ hid => hid) rfl) _
  · have hkept := hsteady.kept.setLog (some [])
    exact running_start hkept.ok hkept.holding
  · rw [List.append_nil]

/-- Recording starts with an empty log, and the job with the current root. -/
theorem beginAllocRecording_spec :
    Spec C (Quiet C lost b n φ) WriterM.beginAllocRecording fun _ s => ∃ p : Pager Node,
      p.allocLog = some [] ∧ Working C lost p b n φ
        (JobAt p b b.freed (.start b.current) { root := b.current.root, freed := b.freed }) s := by
  refine Prog.Triple.perform asserts_quiet ?_ fun s hs => ⟨_, rfl, hs.begin⟩
  exact fun _ => .of_exists fun p => .of_imp fun _ => asserts_working (extending_jobAt _ _)

/-- The writer after the jobs of a batch. -/
def AfterJobs (C : Client) (lost : List Nat) (b : Books) (n : Nat) (φ : Status C.Reject C.Out)
    (requests : List C.Request) (outcomes : List (Except (TxnError C.Reject) C.Out)) :
    Except (TxnError C.Reject) (Writer × List Nat × List (Except (TxnError C.Reject) C.Out)) →
      Shared C.Reject C.Out → Prop
  | .ok (w, freed, outcomes'), s => ∃ b' : Books, (b'.Agrees w freed ∧ b'.Moved ∧ b.Since b' ∧
      ∃ outs, outcomes' = outcomes ++ outs ∧ Applies C b.current requests outs b'.current) ∧
      Quiet C lost b' n φ s
  | .error _, s => ∃ b' φ', Quiet C lost b' n φ' s

theorem asserts_afterJobs (requests : List C.Request)
    (outcomes : List (Except (TxnError C.Reject) C.Out))
    (r : Except (TxnError C.Reject) (Writer × List Nat × List (Except (TxnError C.Reject) C.Out))) :
    Asserts C (AfterJobs C lost b n φ requests outcomes r) := by
  cases r with
  | ok r => exact .of_exists fun b' => .of_imp fun _ => asserts_quiet
  | error e => exact .of_exists fun b' => .of_exists fun φ' => asserts_quiet

/-- A writer that stops leaves the state quiet. -/
theorem stop_spec (replies : List (Reply C.Reject C.Out)) :
    Spec C (Quiet C lost b n φ) (WriterM.stop replies) fun _ s => ∃ φ', Quiet C lost b n φ' s := by
  refine Prog.Triple.perform asserts_quiet (fun _ => .of_exists fun φ' => asserts_quiet) ?_
  rintro s ⟨hsteady, -⟩
  exact ⟨_, ⟨hsteady.kept, hsteady.pinned.congr rfl rfl rfl, hsteady.recorded,
    hsteady.acknowledged, hsteady.inFlight⟩, rfl⟩

/-- A batch of jobs is applied in order, each rejected one leaving the state as it was. -/
theorem applyJobs_spec (requests : List C.Request) {w : Writer} {freed : List Nat}
    {outcomes : List (Except (TxnError C.Reject) C.Out)} (hagrees : b.Agrees w freed)
    (hmoved : b.Moved) : Spec C (Quiet C lost b n φ)
      (applyJobs w freed outcomes (requests.map C.apply))
      (AfterJobs C lost b n φ requests outcomes) := by
  induction requests generalizing b w freed outcomes with
  | nil =>
      refine Prog.Triple.ret asserts_quiet fun s hs => ?_
      exact ⟨b, ⟨hagrees, hmoved, ⟨rfl, rfl⟩, [], (List.append_nil _).symm, .nil _⟩, hs⟩
  | cons request requests ih =>
      rw [List.map_cons, applyJobs, ← hagrees.root, ← hagrees.freed]
      -- one job: recording on, the job itself, recording off
      refine Prog.Triple.bind beginAllocRecording_spec fun _ => ?_
      refine Prog.Triple.bind (Q := fun o s => ∃ p : Pager Node, p.allocLog = some [] ∧ ∃ l,
        (C.apply request).Yields (.start b.current) o.1 l ∧
          Working C lost p b n φ (JobEnd p b b.freed o.1 l o.2) s) ?_ ?_
      · refine Prog.Triple.exists_pre fun p => Prog.Triple.of_imp fun hlog => ?_
        refine Prog.Triple.of_pre (fun s hs => C.sound hs.1.kept.inv request) fun hsound => ?_
        exact (Job.run_spec (C.apply request) hsound).mono (fun _ h => h)
          fun o s h => ⟨p, hlog, h⟩
      · rintro ⟨outcome, ctx⟩
        refine Prog.Triple.bind (takeAllocRecording_spec hmoved request (outcome, ctx))
          fun recorded => ?_
        refine Prog.Triple.exists_pre fun l => Prog.Triple.of_imp fun hyields => ?_
        -- an applied job moves the books on, a rejected one leaves its pages to the orphans
        cases outcome with
        | ok out =>
            refine Prog.Triple.exists_pre fun b' => Prog.Triple.of_imp ?_
            rintro ⟨hcurrent, hsince, hmoved', hagrees'⟩
            have hnext : b'.Agrees { w with root := ctx.root } ctx.freed :=
              ⟨hagrees'.root, hagrees'.freed, hagrees'.pending.trans hagrees.pending,
                hagrees'.orphaned.trans hagrees.orphaned⟩
            refine (ih hnext hmoved').mono (fun _ h => h) ?_
            rintro (e | ⟨w'', freed'', outcomes''⟩) s hs
            · exact hs
            · obtain ⟨b'', ⟨ha, hm, hd, outs, houts, happlies⟩, hq⟩ := hs
              refine ⟨b'', ⟨ha, hm, ⟨hd.durable.trans hsince.durable,
                hd.durableTrees.trans hsince.durableTrees⟩, .ok out :: outs, ?_, ?_⟩, hq⟩
              · rw [houts, List.append_assoc, List.singleton_append]
              · rw [hcurrent] at happlies
                exact .ok hyields happlies
        | error e =>
            refine Prog.Triple.of_imp fun htake => ?_
            change ctx.freed.take b.freed.length = b.freed at htake
            by_cases hfatal : e.isFatal = true
            -- an error of the pager stops the writer, and nothing is claimed beyond
            · simp only [hfatal, if_true]
              refine Prog.Triple.bind (stop_spec _) fun _ => ?_
              exact Prog.Triple.ret (.of_exists fun φ' => asserts_quiet) fun s hs => ⟨_, hs⟩
            · simp only [hfatal, Bool.false_eq_true, if_false, htake]
              have hnext : Books.Agrees { b with orphaned := b.orphaned ++ recorded }
                  { w with root := b.current.root, orphaned := w.orphaned ++ recorded } b.freed :=
                ⟨rfl, rfl, hagrees.pending, by rw [← hagrees.orphaned]⟩
              have hmoved' : Books.Moved { b with orphaned := b.orphaned ++ recorded } := hmoved
              refine (ih hnext hmoved').mono (fun _ h => h) ?_
              rintro (e' | ⟨w'', freed'', outcomes''⟩) s hs
              · exact hs
              · obtain ⟨b'', ⟨ha, hm, hd, outs, houts, happlies⟩, hq⟩ := hs
                refine ⟨b'', ⟨ha, hm, ⟨hd.durable, hd.durableTrees⟩, .error e :: outs, ?_,
                  .rejected hyields happlies⟩, hq⟩
                rw [houts, List.append_assoc, List.singleton_append]

end Apply

/-! ## Returning pages -/

section Free

variable {C : Client} {lost : List Nat} {b b' : Books} {n : Nat} {φ : Status C.Reject C.Out}
variable {s : Shared C.Reject C.Out} {id : Nat}

/-- What was superseded by these commits is past. -/
def Settled {ε Out : Type} (txns : List Nat) (s : Shared ε Out) : Prop := ∀ t ∈ txns, Past t s

theorem stable_settled (txns : List Nat) :
    Prog.Stable ReaderStep (Settled txns : Shared C.Reject C.Out → Prop) :=
  fun _ _ hstep h t ht => (h t ht).reader hstep

/-- The pager with a page returned to it. -/
def freed (p : Pager Node) (id : Nat) : Pager Node :=
  { p.load with freeSet := p.frees ++ [id] }

/-- A page that is neither in a current tree nor superseded by the batch goes back to the pager. -/
theorem free_exec (b' : Books) (h : Quiet C lost b n φ s) (hdurable : b'.durable = b.durable)
    (hdurableTrees : b'.durableTrees = b.durableTrees) (hcurrent : b'.current = b.current)
    (htrees : b'.trees = b.trees) (hfreed : b'.freed = b.freed)
    (hpages : b.pages.Perm (id :: b'.pages)) (hpinned : Pinned C b' (freed s.pager id) s) :
    s.fallible (Pager.free id) = (.ok (), { s with pager := freed s.pager id }) ∧
      Quiet C lost b' n φ { s with pager := freed s.pager id } := by
  obtain ⟨hsteady, hstatus⟩ := h
  have howned := hsteady.kept.owned (hpages.symm.subset (List.mem_cons_self ..))
  refine ⟨?_, ⟨?_, hpinned.congr rfl rfl rfl, ?_, hsteady.acknowledged,
    hsteady.inFlight⟩, hstatus⟩
  · unfold Shared.fallible
    rw [Pager.free_eq hsteady.kept.ok.loads howned.1 howned.2.1]
    rfl
  · exact hsteady.kept.free hdurable hdurableTrees hcurrent htrees hfreed hpages
  · rw [hdurable]
    exact hsteady.recorded

/-- The orphans are returned. -/
theorem freePages_orphaned_spec {pages : List Nat} (horphaned : b.orphaned = pages) :
    Spec C (Quiet C lost b n φ) (freePages pages) fun r s =>
      r = .ok () ∧ Quiet C lost { b with orphaned := [] } n φ s := by
  induction pages generalizing b with
  | nil =>
      refine Prog.Triple.ret asserts_quiet fun s hs => ⟨rfl, ?_⟩
      rw [← horphaned]
      exact hs
  | cons page pages ih =>
      refine Prog.Triple.bind (Q := fun r s => r = .ok () ∧
        Quiet C lost { b with orphaned := pages } n φ s) ?_ ?_
      · refine Prog.Triple.perform asserts_quiet (fun _ => .of_imp fun _ => asserts_quiet) ?_
        intro s hs
        have hpages : b.pages.Perm (page :: Books.pages { b with orphaned := pages }) := by
          rw [List.perm_iff_count]
          intro a
          simp only [Books.pages, horphaned, List.count_append, List.count_cons]
          omega
        obtain ⟨hexec, hquiet⟩ := free_exec { b with orphaned := pages } hs rfl rfl rfl rfl
          rfl hpages
          (hs.1.pinned.frame hs.1.kept (fun _ _ => rfl) (le_refl _) (fun _ hid => hid) rfl)
        change (s.fallible (Pager.free page)).1 = _ ∧
          Quiet C lost _ n φ (s.fallible (Pager.free page)).2
        rw [hexec]
        exact ⟨rfl, hquiet⟩
      · rintro r
        refine Prog.Triple.of_imp ?_
        rintro rfl
        exact ih rfl

/-- The pages of an entry of the pending list that is past are returned, and the entry with
them. -/
theorem freePages_pending_spec {txns : List Nat} {t : Nat} (ht : t ∈ txns) {pages : List Nat}
    {l₁ l₂ : List (Nat × List Nat)} (hpending : b.pending = l₁ ++ (t, pages) :: l₂) :
    Spec C (fun s => Quiet C lost b n φ s ∧ Settled txns s) (freePages pages) fun r s =>
      r = .ok () ∧ Quiet C lost { b with pending := l₁ ++ l₂ } n φ s ∧ Settled txns s := by
  induction pages generalizing b with
  | nil =>
      refine Prog.Triple.ret (asserts_quiet.and (stable_settled txns)) fun s hs => ⟨rfl, ?_, hs.2⟩
      obtain ⟨⟨hsteady, hstatus⟩, hsettled⟩ := hs
      have hkept := hsteady.kept
      refine ⟨⟨⟨hkept.version, hkept.durable, hkept.inv, hkept.holding, ?_, hkept.txn⟩, ?_,
        hsteady.recorded, hsteady.acknowledged, hsteady.inFlight⟩, hstatus⟩
      · have := hkept.account
        simp only [Books.pages, hpending, parked_append, parked_cons, List.nil_append] at this ⊢
        exact this
      · exact hsteady.pinned.reclaim (l := []) hpending (hsettled t ht) (fun _ he => by cases he)
          (fun _ => rfl) rfl
  | cons page pages ih =>
      refine Prog.Triple.bind (Q := fun r s => r = .ok () ∧
        Quiet C lost { b with pending := l₁ ++ (t, pages) :: l₂ } n φ s ∧ Settled txns s) ?_ ?_
      · refine Prog.Triple.perform (asserts_quiet.and (stable_settled txns))
          (fun _ => .of_imp fun _ => asserts_quiet.and (stable_settled txns)) ?_
        rintro s ⟨hs, hsettled⟩
        -- the page leaves the parked ones for the free list
        have hpages : b.pages.Perm
            (page :: Books.pages { b with pending := l₁ ++ (t, pages) :: l₂ }) := by
          rw [List.perm_iff_count]
          intro a
          simp only [Books.pages, hpending, parked_append, parked_cons, List.count_append,
            List.count_cons]
          omega
        obtain ⟨hexec, hquiet⟩ := free_exec { b with pending := l₁ ++ (t, pages) :: l₂ } hs
          rfl rfl rfl rfl rfl hpages (hs.1.pinned.reclaim (l := [(t, pages)]) hpending
            (hsettled t ht) (by simp) (fun _ => rfl) rfl)
        change (s.fallible (Pager.free page)).1 = _ ∧
          Quiet C lost _ n φ (s.fallible (Pager.free page)).2 ∧
            Settled txns (s.fallible (Pager.free page)).2
        rw [hexec]
        exact ⟨rfl, hquiet, hsettled⟩
      · rintro r
        refine Prog.Triple.of_imp ?_
        rintro rfl
        exact ih rfl

/-- Reclaiming frees what was parked at or below the watermark and keeps the rest parked. -/
theorem reclaimBelow_spec {txns : List Nat} {watermark : Nat} (l₁ l : List (Nat × List Nat))
    (hpending : b.pending = l₁ ++ l)
    (htxns : ∀ e ∈ l, e.1 ≤ watermark → e.1 ∈ txns) :
    Spec C (fun s => Quiet C lost b n φ s ∧ Settled txns s) (reclaimBelow watermark l) fun r s =>
      ∃ still, r = .ok still ∧ Quiet C lost { b with pending := l₁ ++ still } n φ s ∧
        Settled txns s := by
  induction l generalizing b l₁ with
  | nil =>
      refine Prog.Triple.ret (asserts_quiet.and (stable_settled txns)) fun s hs => ⟨[], rfl, ?_⟩
      rw [← hpending]
      exact hs
  | cons e rest ih =>
      obtain ⟨txn, pages⟩ := e
      have hrest : ∀ e ∈ rest, e.1 ≤ watermark → e.1 ∈ txns := fun e he =>
        htxns e (List.mem_cons_of_mem _ he)
      rw [reclaimBelow]
      by_cases hle : txn ≤ watermark
      · rw [if_pos hle]
        refine Prog.Triple.bind (freePages_pending_spec (htxns _ (List.mem_cons_self ..) hle)
          hpending) fun r => Prog.Triple.of_imp ?_
        rintro rfl
        exact ih l₁ (b := { b with pending := l₁ ++ rest }) rfl hrest
      · rw [if_neg hle]
        refine Prog.Triple.bind (ih (l₁ ++ [(txn, pages)]) (by rw [hpending]; simp) hrest)
          fun r => Prog.Triple.exists_pre fun still => Prog.Triple.of_imp ?_
        rintro rfl
        refine Prog.Triple.ret (asserts_quiet.and (stable_settled txns)) fun s hs =>
          ⟨(txn, pages) :: still, rfl, ?_⟩
        rw [List.append_assoc] at hs
        exact hs

/-- Everything parked that is past goes back to the pager. -/
theorem reclaim_spec : Spec C (Quiet C lost b n φ) (reclaim b.pending) fun r s =>
    ∃ still, r = .ok still ∧ Quiet C lost { b with pending := still } n φ s := by
  refine Prog.Triple.bind (Q := fun watermark s => Quiet C lost b n φ s ∧
    Settled ((b.pending.map Prod.fst).filter (· ≤ watermark)) s) ?_ fun watermark => ?_
  · refine Prog.Triple.perform asserts_quiet (fun _ => asserts_quiet.and (stable_settled _)) ?_
    intro s hs
    refine ⟨hs, fun t ht snap hsnap => ?_⟩
    obtain ⟨hmem, hle⟩ := List.mem_filter.mp ht
    obtain ⟨e, he, rfl⟩ := List.mem_map.mp hmem
    rcases List.mem_cons.mp hsnap with rfl | hsnap
    · exact hs.1.pinned.pending e he
    · exact le_trans (of_decide_eq_true hle)
        (hs.1.pinned.pins.watermark_le (List.mem_map_of_mem hsnap))
  · refine (reclaimBelow_spec [] b.pending rfl fun e he hle => ?_).mono (fun _ h => h) ?_
    · exact List.mem_filter.mpr ⟨List.mem_map_of_mem he, decide_eq_true hle⟩
    · rintro r s ⟨still, hr, hs, -⟩
      exact ⟨still, hr, hs⟩

end Free

end Edb.Txn
