import Edb.Lib.Program
import Edb.Pager.Invariant
import Edb.Txn.Job
import Edb.Txn.Registry

/-!
# The single writer, and the readers beside it

One writer owns the pager and drains the write queue batch by batch. Each job of a batch is
applied to the evolving root; then the whole batch is committed, and its version published.
Superseded pages are parked in `pending` until the watermark shows that no live snapshot can see
them, and the pages of rejected jobs in `orphaned` until a batch commits.

The writer is a program over the shared state. What is one operation here happens under one lock
of the source, the I/O of a commit being done outside of it, write by write; a tree operation is
taken as one step, since a page read in its middle only moves the cache. Between any two
operations readers pin a version, read pages, and release it (`ReaderStep`).

`published`, `versions` and `acknowledged` record what happened, for the statements: the pages
as they were when the latest version was published; the contents before the first batch and
after each batch, from the moment its commit begins or, if it commits nothing, it is answered; and
how many of these belong to answered batches. `name` tells which entries of the published tree
name further trees.
-/

namespace Edb.Txn

open Edb.BTree Edb.Lib

/-! ## The shared state -/

/-- The trees of a version with their bindings, the published one first. -/
abbrev Contents := List (Nat × List Entry)

/-- Read all trees of the version with this root. -/
def readContents (name : Entry → Option Nat) : Option Nat → BTreeM Contents
  | none => pure []
  | some root => do
      let es ← range root none none
      let rest ← (es.filterMap name).mapM fun r => do pure (r, ← range r none none)
      pure ((root, es) :: rest)

def contents (name : Entry → Option Nat) (root : Option Nat) (p : Pager Node) : Contents :=
  match readContents name root p with
  | .ok c _ => c
  | .error _ _ => []

/-- A consistent read view pinned at one committed version. -/
structure Snapshot where
  root : Option Nat
  txnId : Nat
  /-- The pages when the version was published. -/
  content : Nat → Option (Frame Node)

/-- The answer to a submitter: the committed transaction id with the job's output. -/
abbrev Reply (ε Out : Type) := Except (TxnError ε) (Nat × Out)

structure Shared (ε Out : Type) where
  pager : Pager Node
  registry : Registry
  published : Nat → Option (Frame Node)
  /-- The live snapshots. -/
  snapshots : List Snapshot
  /-- The contents before the first batch and after each. -/
  versions : List Contents
  /-- How many of the versions have been answered for, the first counting as such. -/
  acknowledged : Nat
  replies : List (Reply ε Out)

variable {ε Out : Type}

/-- What a reader does to the shared state. -/
inductive ReaderStep : Shared ε Out → Shared ε Out → Prop
  | acquire (s : Shared ε Out) : ReaderStep s
      { s with
        registry := s.registry.acquire.2
        snapshots :=
          { root := s.registry.acquire.1.1, txnId := s.registry.acquire.1.2,
            content := s.published } :: s.snapshots }
  | readPage (s : Shared ε Out) (id : Nat) :
      ReaderStep s { s with pager := endState (Pager.readPage id s.pager) }
  | release (s : Shared ε Out) {l₁ l₂ : List Snapshot} {snap : Snapshot} :
      s.snapshots = l₁ ++ snap :: l₂ → ReaderStep s
        { s with registry := s.registry.release snap.txnId, snapshots := l₁ ++ l₂ }

/-! ## The operations of the writer -/

/-- An operation on the trees of the pager. -/
inductive TreeOp where
  | lookup (root : Nat) (key : Bytes)
  | range (root : Nat) (lo hi : Option Bytes)
  | insert (root : Nat) (key value : Bytes)
  | delete (root : Nat) (key : Bytes)
  | create
  | pages (root : Nat)

@[reducible] def TreeOp.Res : TreeOp → Type
  | .lookup .. => Option Bytes
  | .range .. => List Entry
  | .insert .. => Edit
  | .delete .. => Edit
  | .create => Nat
  | .pages _ => List Nat

def TreeOp.run : (op : TreeOp) → BTreeM op.Res
  | .lookup root key => BTree.lookup root key
  | .range root lo hi => BTree.range root lo hi
  | .insert root key value => BTree.insert root key value
  | .delete root key => BTree.delete root key
  | .create => BTree.create
  | .pages root => BTree.pages root

/-- An operation of the writer on the shared state. -/
inductive WriterOp (ε Out : Type) where
  | tree (op : TreeOp)
  | beginAllocRecording
  | takeAllocRecording
  | free (id : Nat)
  | setCatalogRoot (root : Option Nat)
  | commitBegin
  | io (op : IoOp Node)
  | commitEnd (plan : CommitPlan Node)
  | txnId
  | watermark
  | publish (root : Option Nat) (txnId : Nat)
  | reply (replies : List (Reply ε Out))
  | stop (replies : List (Reply ε Out))

@[reducible] def WriterOp.Res : WriterOp ε Out → Type
  | .tree op => Except BTreeError op.Res
  | .beginAllocRecording => Unit
  | .takeAllocRecording => List Nat
  | .free _ => Except PagerError Unit
  | .setCatalogRoot _ => Unit
  | .commitBegin => Except PagerError (CommitPlan Node)
  | .io _ => Unit
  | .commitEnd _ => Unit
  | .txnId => Nat
  | .watermark => Nat
  | .publish .. => Unit
  | .reply _ => Unit
  | .stop _ => Unit

/-- A fallible pager or tree computation as one operation. -/
def Shared.fallible {e β : Type} (x : EStateM e (Pager Node) β) (s : Shared ε Out) :
    Except e β × Shared ε Out :=
  match x s.pager with
  | .ok b p => (.ok b, { s with pager := p })
  | .error err p => (.error err, { s with pager := p })

/-- The answer to a batch. A batch that committed nothing has the contents there were. -/
def Shared.answer (name : Entry → Option Nat) (replies : List (Reply ε Out)) (s : Shared ε Out) :
    Shared ε Out :=
  let versions :=
    if s.versions.length = s.acknowledged then
      s.versions ++ [contents name s.pager.metadata.catalogRoot s.pager]
    else s.versions
  { s with
    replies := s.replies ++ replies
    versions := versions
    acknowledged := versions.length }

def WriterOp.exec (name : Entry → Option Nat) :
    (op : WriterOp ε Out) → Shared ε Out → op.Res × Shared ε Out
  | .tree op, s => s.fallible op.run
  | .beginAllocRecording, s => ((), { s with pager := s.pager.beginAllocRecording })
  | .takeAllocRecording, s =>
      (s.pager.takeAllocRecording.1, { s with pager := s.pager.takeAllocRecording.2 })
  | .free id, s => s.fallible (Pager.free id)
  | .setCatalogRoot root, s => ((), { s with pager := s.pager.setCatalogRoot root })
  | .commitBegin, s =>
      { s with
        versions := s.versions ++ [contents name s.pager.metadata.catalogRoot s.pager] }.fallible
        Pager.commitBegin
  | .io op, s => ((), { s with pager := Pager.runIo [op] s.pager })
  | .commitEnd plan, s => ((), { s with pager := Pager.commitEnd plan s.pager })
  | .txnId, s => (s.pager.txnId, s)
  | .watermark, s => (s.registry.watermark, s)
  | .publish root txn, s =>
      ((), { s with registry := s.registry.publish root txn, published := s.pager.view })
  | .reply replies, s => ((), s.answer name replies)
  | .stop replies, s => ((), { s with replies := s.replies ++ replies })

/-- A program of the writer. -/
abbrev WriterM (ε Out α : Type) := Prog (WriterOp ε Out) WriterOp.Res α

namespace WriterM

def tree (op : TreeOp) : WriterM ε Out (Except BTreeError op.Res) := Prog.perform (WriterOp.tree op)

def beginAllocRecording : WriterM ε Out Unit := Prog.perform WriterOp.beginAllocRecording

def takeAllocRecording : WriterM ε Out (List Nat) := Prog.perform WriterOp.takeAllocRecording

def free (id : Nat) : WriterM ε Out (Except PagerError Unit) := Prog.perform (WriterOp.free id)

def setCatalogRoot (root : Option Nat) : WriterM ε Out Unit :=
  Prog.perform (WriterOp.setCatalogRoot root)

def commitBegin : WriterM ε Out (Except PagerError (CommitPlan Node)) :=
  Prog.perform WriterOp.commitBegin

def io (op : IoOp Node) : WriterM ε Out Unit := Prog.perform (WriterOp.io op)

def commitEnd (plan : CommitPlan Node) : WriterM ε Out Unit :=
  Prog.perform (WriterOp.commitEnd plan)

def txnId : WriterM ε Out Nat := Prog.perform WriterOp.txnId

def watermark : WriterM ε Out Nat := Prog.perform WriterOp.watermark

def publish (root : Option Nat) (txn : Nat) : WriterM ε Out Unit :=
  Prog.perform (WriterOp.publish root txn)

def reply (replies : List (Reply ε Out)) : WriterM ε Out Unit :=
  Prog.perform (WriterOp.reply replies)

def stop (replies : List (Reply ε Out)) : WriterM ε Out Unit := Prog.perform (WriterOp.stop replies)

end WriterM

/-! ## The write context -/

/-- The writer-side view a job runs against. -/
structure Ctx where
  root : Nat
  freed : List Nat

/-- A mutation answers with the new root; the pages it superseded are parked with the batch. -/
def Ctx.supersede (ctx : Ctx) : Except BTreeError Edit → Except BTreeError Nat × Ctx
  | .ok edit => (.ok edit.newRoot, { ctx with freed := ctx.freed ++ edit.freed })
  | .error e => (.error e, ctx)

/-- The pages of a retired tree are parked with the batch. -/
def Ctx.retire (ctx : Ctx) : Except BTreeError (List Nat) → Except BTreeError Unit × Ctx
  | .ok pages => (.ok (), { ctx with freed := ctx.freed ++ pages })
  | .error e => (.error e, ctx)

/-- An operation of the write context, on the trees of the pager. -/
def CtxOp.run (ctx : Ctx) : (op : CtxOp) → WriterM ε Out (Except BTreeError op.Res × Ctx)
  | .root => pure (.ok ctx.root, ctx)
  | .setRoot r => pure (.ok (), { ctx with root := r })
  | .lookup r key => do pure (← WriterM.tree (.lookup r key), ctx)
  | .scan r lo hi => do pure (← WriterM.tree (.range r lo hi), ctx)
  | .insert r key value => do pure (ctx.supersede (← WriterM.tree (.insert r key value)))
  | .delete r key => do pure (ctx.supersede (← WriterM.tree (.delete r key)))
  | .createTree => do pure (← WriterM.tree .create, ctx)
  | .freeTree r => do pure (ctx.retire (← WriterM.tree (.pages r)))

/-- Run a job against a write context. -/
def Job.run {α : Type} : Job ε α → Ctx → WriterM ε Out (Except (TxnError ε) α × Ctx)
  | .ret a, ctx => pure (.ok a, ctx)
  | .fail e, ctx => pure (.error e, ctx)
  | .call op k, ctx => do
      match ← op.run ctx with
      | (.ok r, ctx) => (k r).run ctx
      | (.error e, ctx) => pure (.error (.btree e), ctx)

/-! ## Batches -/

/-- The writer: the live root and the parked pages. -/
structure Writer where
  /-- The latest root, possibly uncommitted within a batch. -/
  root : Nat
  /-- Pages superseded by commit `T`, awaiting reclamation. -/
  pending : List (Nat × List Nat)
  /-- Pages of rejected transactions, which no root ever referenced. -/
  orphaned : List Nat
  deriving DecidableEq, Repr

section Batch

variable [Categorized ε]

/-- Tell the submitters that the writer has stopped. -/
def replyStopped (e : TxnError ε) (count : Nat) : WriterM ε Out Unit :=
  WriterM.stop (List.replicate count (.error (.writerStopped e.category)))

/-- Apply the jobs of a batch in order. A rejected job restores the root and the freed list, and
its pages are parked as orphans; a fatal error aborts the batch. -/
def applyJobs (w : Writer) (freed : List Nat) (outcomes : List (Except (TxnError ε) Out)) :
    List (Job ε Out) →
      WriterM ε Out (Except (TxnError ε) (Writer × List Nat × List (Except (TxnError ε) Out)))
  | [] => pure (.ok (w, freed, outcomes))
  | job :: jobs => do
      WriterM.beginAllocRecording
      let (outcome, ctx) ← job.run { root := w.root, freed := freed }
      let recorded ← WriterM.takeAllocRecording
      match outcome with
      | .ok out => applyJobs { w with root := ctx.root } ctx.freed (outcomes ++ [.ok out]) jobs
      | .error e =>
          if e.isFatal then do
            replyStopped e (outcomes.length + 1)
            pure (.error e)
          else
            applyJobs { w with orphaned := w.orphaned ++ recorded }
              (ctx.freed.take freed.length) (outcomes ++ [.error e]) jobs

/-- Return pages to the allocator. -/
def freePages : List Nat → WriterM ε Out (Except PagerError Unit)
  | [] => pure (.ok ())
  | page :: pages => do
      match ← WriterM.free page with
      | .ok () => freePages pages
      | .error e => pure (.error e)

/-- Return the parked pages to the allocator that no live snapshot can see, given the watermark;
the others stay parked. -/
def reclaimBelow (watermark : Nat) :
    List (Nat × List Nat) → WriterM ε Out (Except PagerError (List (Nat × List Nat)))
  | [] => pure (.ok [])
  | (txn, pages) :: rest =>
      if txn ≤ watermark then do
        match ← freePages pages with
        | .ok () => reclaimBelow watermark rest
        | .error e => pure (.error e)
      else do
        match ← reclaimBelow watermark rest with
        | .ok still => pure (.ok ((txn, pages) :: still))
        | .error e => pure (.error e)

def reclaim (pending : List (Nat × List Nat)) :
    WriterM ε Out (Except PagerError (List (Nat × List Nat))) := do
  let watermark ← WriterM.watermark
  reclaimBelow watermark pending

/-- The durable I/O of a commit, in order. -/
def runIo : List (IoOp Node) → WriterM ε Out Unit
  | [] => pure ()
  | op :: ops => do
      WriterM.io op
      runIo ops

def commit : WriterM ε Out (Except PagerError Unit) := do
  match ← WriterM.commitBegin with
  | .ok plan => do
      runIo plan.io
      WriterM.commitEnd plan
      pure (.ok ())
  | .error e => pure (.error e)

/-- Make a batch that moved the root durable and publish it: reclaim what no live snapshot can
see, return the orphans, commit, park what the batch superseded. -/
def commitBatch (w : Writer) (freed : List Nat) :
    WriterM ε Out (Except PagerError (Writer × Nat)) := do
  match ← reclaim w.pending with
  | .error e => pure (.error e)
  | .ok still =>
      match ← freePages w.orphaned with
      | .error e => pure (.error e)
      | .ok () => do
          WriterM.setCatalogRoot (some w.root)
          match ← commit with
          | .error e => pure (.error e)
          | .ok () => do
              let newTxn ← WriterM.txnId
              let pending := if freed.isEmpty then still else still ++ [(newTxn, freed)]
              WriterM.publish (some w.root) newTxn
              pure (.ok ({ root := w.root, pending := pending, orphaned := [] }, newTxn))

/-- Answer every submitter of a batch with the committed transaction id. -/
def replyAll (outcomes : List (Except (TxnError ε) Out)) (txn : Nat) : WriterM ε Out Unit :=
  WriterM.reply (outcomes.map fun outcome => outcome.map fun out => (txn, out))

/-- Process one batch. A root that has not moved means that nothing changed and there is nothing
to commit. -/
def processBatch (w : Writer) (batch : List (Job ε Out)) :
    WriterM ε Out (Except (TxnError ε) Writer) := do
  match ← applyJobs w [] [] batch with
  | .error e => pure (.error e)
  | .ok (w', freed, outcomes) =>
      if w'.root ≠ w.root then do
        match ← commitBatch w' freed with
        | .error e => do
            replyStopped (.pager e) outcomes.length
            pure (.error (.pager e))
        | .ok (w'', txn) => do
            replyAll outcomes txn
            pure (.ok w'')
      else do
        let txn ← WriterM.txnId
        replyAll outcomes txn
        pure (.ok w')

/-- Process batches until there are none left or a fatal error stops the writer. -/
def run (w : Writer) : List (List (Job ε Out)) → WriterM ε Out (Except (TxnError ε) Writer)
  | [] => pure (.ok w)
  | batch :: batches => do
      match ← processBatch w batch with
      | .ok w => run w batches
      | .error e => pure (.error e)

end Batch

/-! ## Opening a database -/

/-- Give a pager without one its root tree, and commit it. -/
def seed : BTreeM Nat := do
  let root ← BTree.create
  modify (Pager.setCatalogRoot (some root))
  liftPager Pager.commit
  pure root

def spawn (name : Entry → Option Nat) (p : Pager Node) (root : Nat) : Shared ε Out × Writer :=
  ({ pager := p
     registry := Registry.new (some root) p.txnId
     published := p.view
     snapshots := []
     versions := [contents name (some root) p]
     acknowledged := 1
     replies := [] },
   { root := root, pending := [], orphaned := [] })

/-- A fresh database. -/
def create (name : Entry → Option Nat) (cacheBytes : Nat) :
    Except BTreeError (Shared ε Out × Writer) :=
  match seed (Pager.create cacheBytes) with
  | .ok root p => .ok (spawn name p root)
  | .error e _ => .error e

/-- An existing database, at its last committed version. -/
def openDb (name : Entry → Option Nat) (i : Image Node) (cacheBytes : Nat) :
    Except BTreeError (Shared ε Out × Writer) :=
  match Pager.openImage i cacheBytes with
  | .error e => .error (.pager e)
  | .ok p =>
      match p.metadata.catalogRoot with
      | some root => .ok (spawn name p root)
      | none =>
          match seed p with
          | .ok root p => .ok (spawn name p root)
          | .error e _ => .error e

end Edb.Txn
