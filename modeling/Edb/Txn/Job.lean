import Edb.BTree.Cursor
import Edb.BTree.Shape

/-!
# Write transactions

A write transaction is a job: a program over the operations of a write context, which may touch
any tree reachable from the published root. An operation that fails ends the job with its error,
as every job of the source propagates it.

`OpsJob` is the plain key/value job; the catalog has its own.
-/

namespace Edb.Txn

open Edb.BTree

/-- A rejection of a higher layer, with its category. -/
class Categorized (ε : Type) where
  category : ε → ErrorCategory

inductive TxnError (ε : Type) where
  | pager (e : PagerError)
  | btree (e : BTreeError)
  /-- A job rejected the transaction, with the error of its layer. -/
  | rejected (e : ε)
  /-- The writer has stopped after a fatal error of this category. -/
  | writerStopped (category : ErrorCategory)
  deriving DecidableEq, Repr

def TxnError.category {ε : Type} [Categorized ε] : TxnError ε → ErrorCategory
  | .pager e => e.category
  | .btree e => e.category
  | .rejected e => Categorized.category e
  | .writerStopped category => category

/-- An error that stops the writer, as opposed to one that rejects a single transaction. -/
def TxnError.isFatal {ε : Type} [Categorized ε] (err : TxnError ε) : Bool :=
  match err.category with
  | .io | .corruption => true
  | _ => false

/-! ## Jobs -/

/-- An operation of a write context. -/
inductive CtxOp where
  | root
  | setRoot (root : Nat)
  | lookup (root : Nat) (key : Bytes)
  | scan (root : Nat) (lo hi : Option Bytes)
  | insert (root : Nat) (key value : Bytes)
  | delete (root : Nat) (key : Bytes)
  | createTree
  | freeTree (root : Nat)

/-- What an operation returns when it succeeds. -/
@[reducible] def CtxOp.Res : CtxOp → Type
  | .root => Nat
  | .setRoot _ => Unit
  | .lookup .. => Option Bytes
  | .scan .. => List Entry
  | .insert .. => Nat
  | .delete .. => Nat
  | .createTree => Nat
  | .freeTree _ => Unit

/-- The logic of a write transaction, with rejections in `ε` and output in `α`. -/
inductive Job (ε α : Type) : Type
  | ret (a : α)
  | fail (e : TxnError ε)
  | call (op : CtxOp) (k : op.Res → Job ε α)

namespace Job

variable {ε α β : Type}

def bind : Job ε α → (α → Job ε β) → Job ε β
  | ret a, f => f a
  | fail e, _ => fail e
  | call op k, f => call op fun r => (k r).bind f

instance : Monad (Job ε) where
  pure := ret
  bind := bind

@[simp] theorem pure_eq (a : α) : (pure a : Job ε α) = ret a := rfl

@[simp] theorem ret_bind (a : α) (f : α → Job ε β) : ret a >>= f = f a := rfl

@[simp] theorem fail_bind (e : TxnError ε) (f : α → Job ε β) :
    (fail e : Job ε α) >>= f = fail e := rfl

@[simp] theorem call_bind (op : CtxOp) (k : op.Res → Job ε α) (f : α → Job ε β) :
    call op k >>= f = call op fun r => k r >>= f := rfl

def ofExcept : Except (TxnError ε) α → Job ε α
  | .ok a => ret a
  | .error e => fail e

def reject (e : ε) : Job ε α := fail (.rejected e)

/-! ### The operations of the write context -/

def root : Job ε Nat := call .root ret

def setRoot (root : Nat) : Job ε Unit := call (.setRoot root) ret

def lookup (root : Nat) (key : Bytes) : Job ε (Option Bytes) := call (.lookup root key) ret

def scan (root : Nat) (lo hi : Option Bytes) : Job ε (List Entry) := call (.scan root lo hi) ret

def insert (root : Nat) (key value : Bytes) : Job ε Nat := call (.insert root key value) ret

def delete (root : Nat) (key : Bytes) : Job ε Nat := call (.delete root key) ret

def createTree : Job ε Nat := call .createTree ret

def freeTree (root : Nat) : Job ε Unit := call (.freeTree root) ret

end Job

/-! ## The plain key/value job -/

/-- One mutation within a write transaction. -/
inductive Op where
  | put (key value : Bytes)
  | delete (key : Bytes)
  deriving DecidableEq, Repr

/-- A key/value job rejects nothing of its own. -/
instance : Categorized Empty where
  category e := nomatch e

namespace OpsJob

/-- Every entry is checked before any is put. -/
def validate : List Op → Except BTreeError Unit
  | [] => .ok ()
  | .put key value :: ops => do
      checkEntry key value
      validate ops
  | .delete _ :: ops => validate ops

def applyOp (root : Nat) : Op → Job Empty Nat
  | .put key value => Job.insert root key value
  | .delete key => Job.delete root key

/-- A list of mutations of the tree at the published root. -/
def apply (ops : List Op) : Job Empty Unit := do
  Job.ofExcept ((validate ops).mapError .btree)
  let root ← Job.root
  let root ← ops.foldlM applyOp root
  Job.setRoot root

end OpsJob

end Edb.Txn
