import Mathlib.Logic.Function.Basic
import Edb.Txn.Ledger

/-!
# What a job that succeeds ensures

Beside the ledger, the origin of each tree: the root at which the job found the tree it descends
from, none if the job created it. A mutation that takes a tree to another root takes its origin
there (`CtxOp.descend`).

`Job.Ensures` is the rule a job is specified by: it works on current trees only, and where it
succeeds, its result, the origins and the ledger are as asserted. Nothing is asked of a job that
fails, which is undone.
-/

namespace Edb.Txn

open Edb.BTree Edb.Lib

/-- The root a tree of a job descends from. -/
abbrev Origin := Nat → Option Nat

/-- The origins after an operation that answered. -/
def CtxOp.descend (origin : Origin) : (op : CtxOp) → op.Res → Origin
  | .insert r _ _, fresh => Function.update origin fresh (origin r)
  | .delete r _, fresh => Function.update origin fresh (origin r)
  | .createTree, fresh => Function.update origin fresh none
  | .root, _ => origin
  | .setRoot _, _ => origin
  | .lookup .., _ => origin
  | .scan .., _ => origin
  | .freeTree _, _ => origin

namespace Job

variable {ε α β : Type}

/-- The job, returning the origins beside its result. -/
def traced : Job ε α → Origin → Job ε (α × Origin)
  | ret a, origin => ret (a, origin)
  | fail e, _ => fail e
  | call op k, origin => call op fun r => (k r).traced (op.descend origin r)

theorem traced_bind (x : Job ε α) (f : α → Job ε β) (origin : Origin) :
    (x >>= f).traced origin = x.traced origin >>= fun r => (f r.1).traced r.2 := by
  induction x generalizing origin with
  | ret a => rfl
  | fail e => rfl
  | call op k ih =>
      rw [call_bind, traced, traced, call_bind]
      exact congrArg (call op) (funext fun r => ih r _)

instance : LawfulMonad (Job ε) := by
  refine LawfulMonad.mk' (Job ε) (fun x => ?_) (fun _ _ => rfl) (fun x f g => ?_)
  · induction x with
    | ret a => rfl
    | fail e => rfl
    | call op k ih => exact congrArg (call op) (funext ih)
  · induction x with
    | ret a => rfl
    | fail e => rfl
    | call op k ih => exact congrArg (call op) (funext ih)

/-- What a job ensures, it ensures whether it is traced or not. -/
theorem wp_traced {Q : Except (TxnError ε) α → Ledger → Prop} {x : Job ε α} {origin : Origin}
    {l : Ledger} : (x.traced origin).wp (fun r l' => Q (r.map Prod.fst) l') l ↔ x.wp Q l := by
  induction x generalizing origin l with
  | ret a => exact Iff.rfl
  | fail e => exact Iff.rfl
  | call op k ih =>
      refine forall_congr' fun fresh => forall_congr' fun _ => forall_congr' fun _ => ?_
      split
      next => exact Iff.rfl
      next => exact Iff.rfl
      next r l' _ => exact ih r

/-- The job works on current trees only, and if it succeeds, it ends in `Q`. -/
def Ensures (Q : α → Origin → Ledger → Prop) (x : Job ε α) (origin : Origin) (l : Ledger) : Prop :=
  (x.traced origin).wp (fun r l' => ∀ a origin', r = .ok (a, origin') → Q a origin' l') l

namespace Ensures

variable {Q Q' : α → Origin → Ledger → Prop} {x : Job ε α} {origin : Origin} {l : Ledger}

theorem wp {P : α → Ledger → Prop} (h : x.Ensures (fun a _ l' => P a l') origin l) :
    x.wp (fun r l' => ∀ a, r = .ok a → P a l') l := by
  refine wp_traced.1 (Job.wp_mono h ?_)
  rintro (e | ⟨a, origin'⟩) l' hr b hb
  · cases hb
  · cases hb
    exact hr a origin' rfl

theorem ret {a : α} (h : Q a origin l) : (Job.ret a : Job ε α).Ensures Q origin l := by
  rintro a' origin' ⟨⟩
  exact h

theorem fail {e : TxnError ε} : (Job.fail e : Job ε α).Ensures Q origin l :=
  fun _ _ h => nomatch h

theorem mono (h : x.Ensures Q origin l) (hQ : ∀ a origin' l', Q a origin' l' → Q' a origin' l') :
    x.Ensures Q' origin l :=
  Job.wp_mono h fun _ _ hr a origin' hok => hQ a origin' _ (hr a origin' hok)

/-- A job ensures what its second part ensures of what the first returns. -/
theorem bind {f : α → Job ε β} {Q : β → Origin → Ledger → Prop}
    (h : x.Ensures (fun a origin' l' => (f a).Ensures Q origin' l') origin l) :
    (x >>= f).Ensures Q origin l := by
  unfold Ensures
  rw [traced_bind, wp_bind]
  refine Job.wp_mono h ?_
  rintro (e | ⟨a, origin'⟩) l' hr
  · exact fun _ _ h => nomatch h
  · exact hr a origin' rfl

/-! ### The operations -/

section Ops

variable {r : Nat} {t : TreeState} {key value : Bytes} {lo hi : Option Bytes}

theorem root {Q : Nat → Origin → Ledger → Prop} (h : Q l.root origin l) :
    (Job.root : Job ε Nat).Ensures Q origin l := by
  rintro fresh - - a origin' ⟨⟩
  exact h

theorem setRoot {Q : Unit → Origin → Ledger → Prop} (h : Q () origin { l with root := r }) :
    (Job.setRoot r : Job ε Unit).Ensures Q origin l := by
  rintro fresh - - a origin' ⟨⟩
  exact h

/-- A lookup returns the value under the key and changes no tree. -/
theorem lookup {Q : Option Bytes → Origin → Ledger → Prop} (ht : l.trees r = some t)
    (h : Q (OrdMap.find key t.entries) origin l) :
    (Job.lookup r key : Job ε _).Ensures Q origin l := by
  intro fresh _ _
  simp only [Ledger.exec, ht, Option.map_some]
  rintro a origin' ⟨⟩
  exact h

/-- A scan returns the entries in the bounds and changes no tree. -/
theorem scan {Q : List Entry → Origin → Ledger → Prop} (ht : l.trees r = some t)
    (h : Q (t.entries.filter fun e => inBounds lo hi e.1) origin l) :
    (Job.scan r lo hi : Job ε _).Ensures Q origin l := by
  intro fresh _ _
  simp only [Ledger.exec, ht, Option.map_some]
  rintro a origin' ⟨⟩
  exact h

/-- An insert retires the tree and adds the edited one under a fresh root. -/
theorem insert {Q : Nat → Origin → Ledger → Prop} (ht : l.trees r = some t)
    (h : ∀ fresh t', l.trees fresh = none → t.insert key value = .ok t' →
      Q fresh (Function.update origin fresh (origin r)) ((l.retire r).add fresh t')) :
    (Job.insert r key value : Job ε _).Ensures Q origin l := by
  intro fresh _ hfresh
  simp only [Ledger.exec, ht, Option.map_some]
  cases hins : t.insert key value with
  | ok t' =>
      rintro a origin' ⟨⟩
      exact h fresh t' hfresh hins
  | error e => rintro a origin' ⟨⟩

/-- A delete retires the tree for the edited one, or keeps it when the key is not there. -/
theorem delete {Q : Nat → Origin → Ledger → Prop} (ht : l.trees r = some t)
    (hmove : ∀ fresh t', l.trees fresh = none → t.delete key = .ok (some t') →
      Q fresh (Function.update origin fresh (origin r)) ((l.retire r).add fresh t'))
    (hkeep : t.delete key = .ok none → Q r origin l) :
    (Job.delete r key : Job ε _).Ensures Q origin l := by
  intro fresh _ hfresh
  simp only [Ledger.exec, ht, Option.map_some]
  cases hdel : t.delete key with
  | ok o =>
      cases o with
      | some t' =>
          rintro a origin' ⟨⟩
          exact hmove fresh t' hfresh hdel
      | none =>
          rintro a origin' ⟨⟩
          rw [CtxOp.descend, Function.update_eq_self]
          exact hkeep hdel
  | error e => rintro a origin' ⟨⟩

/-- A new tree is empty and comes from no other. -/
theorem createTree {Q : Nat → Origin → Ledger → Prop}
    (h : ∀ fresh, l.trees fresh = none →
      Q fresh (Function.update origin fresh none) (l.add fresh TreeState.empty)) :
    (Job.createTree : Job ε Nat).Ensures Q origin l := by
  rintro fresh - hfresh a origin' ⟨⟩
  exact h fresh hfresh

/-- A freed tree is retired. -/
theorem freeTree {Q : Unit → Origin → Ledger → Prop} (ht : l.trees r = some t)
    (h : Q () origin (l.retire r)) : (Job.freeTree r : Job ε Unit).Ensures Q origin l := by
  intro fresh _ _
  simp only [Ledger.exec, ht, Option.map_some]
  rintro a origin' ⟨⟩
  exact h

end Ops

end Ensures

end Job

end Edb.Txn
