import Edb.Catalog.Job
import Edb.Query.Validate

/-!
# The write path

A validated write becomes a catalog job. Selectors and assignments are evaluated against
live rows inside the writer, as a policy the job carries.
-/

namespace Edb.Query

open Edb.Types Edb.Proto
open Edb.Catalog hiding CmpOp

/-- The shape a single-table write resolves references against. -/
def shapeOf (def_ : TableDef) : Shape :=
  def_.columns.foldl (fun shape col => shape.push (some def_.name) col.name) ⟨[]⟩

/-- A policy's failure is an invalid query for the row. -/
def boxed {α : Type} : Except EvalError α → CatResult α
  | .ok a => .ok a
  | .error _ => .error (.policy .validation)

/-- Whether a selector takes a live row; a missing one takes none. -/
def selectorMatches (fx : Intrinsics) (selector : Option Selector) : RowFilter :=
  fun def_ row =>
    match selector with
    | none => .ok false
    | some .all => .ok true
    | some (.where_ pred) => boxed (evalPredicate fx pred row (shapeOf def_))

/-- The policy of an update: a selector and the assignments. -/
def updatePolicy (fx : Intrinsics) (update : Update) : RowUpdater where
  selects := selectorMatches fx update.selector
  newValues def_ row := update.set.mapM (fun (name, expr) => do
    let value ← boxed (eval fx row (shapeOf def_) expr)
    pure (name, value))

/-- One write of a transaction; none for a request that is not a write. -/
def writeSpec (fx : Intrinsics) : Request → Option WriteSpec
  | .insert ins => some (.insert ins.table ins.rows)
  | .update upd => some (.update upd.table (updatePolicy fx upd))
  | .delete del => some (.delete del.table (selectorMatches fx del.selector))
  | _ => none

/-- The job a request is submitted as; none for a read, and for a transaction that holds
anything but writes. -/
def requestJob (fx : Intrinsics) : Request → Option JobOp
  | .insert ins => some (.insert ins.table ins.rows)
  | .update upd => some (.updateWhere upd.table (updatePolicy fx upd))
  | .delete del => some (.deleteWhere del.table (selectorMatches fx del.selector))
  | .transaction ops => (ops.mapM (writeSpec fx)).map JobOp.batch
  | .select _ => none
  | .explain _ => none

end Edb.Query
