import Edb.Query.Exec
import Edb.Query.Lower

/-!
# The validator

Name resolution and type checking over the plan: a row type is threaded up the tree and
every expression is checked against the columns visible below it. Writes are checked over
their syntax, with the rules that make an update safe.
-/

namespace Edb.Query

open Edb.Types Edb.Proto Edb.Catalog

/-- The schema names are resolved against; `none` is an unknown table. -/
abbrev SchemaView := String → CatResult (Option TableDef)

/-- A snapshot as a schema source. -/
def schemaOf (snap : CatSnapshot) : SchemaView := fun table =>
  match snap.table table with
  | .ok def_ => .ok (some def_)
  | .error (.unknownTable _) => .ok none
  | .error other => .error other

/-- How a request fails validation. -/
inductive ValidateError where
  | lower (err : LowerError)
  | schema (err : CatalogError)
  | unknownTable (table : String)
  | unknownColumn (qualifier : Option String) (column : String)
  | ambiguousColumn (column : String)
  | incompatibleComparison (left right : TypeKind)
  | nonBooleanPredicate (context : String) (found : TypeKind)
  | nonNumericArith (found : TypeKind)
  | nonTextLike (found : TypeKind)
  | jsonNotOrderable (context : String)
  | jsonCast
  | incompatibleKinds (left right : TypeKind)
  | aggregateNotAllowed
  | missingSelector
  | guardedBlindSet (column : String)
  | engineManagedWrite (column : String)
  | pkImmutable (column : String)
  | assignTypeMismatch (column : String) (expected found : TypeKind)
  deriving DecidableEq, Repr

abbrev ValidateResult := Except ValidateError

/-! ## Types of expressions and rows -/

/-- The static type of an expression: its kind, none for an untyped null, and whether it may
be null. -/
structure FieldType where
  kind : Option TypeKind
  nullable : Bool
  deriving DecidableEq, Repr

def FieldType.null : FieldType := ⟨none, true⟩

def FieldType.of (kind : TypeKind) (nullable : Bool) : FieldType := ⟨some kind, nullable⟩

def FieldType.boolean (nullable : Bool) : FieldType := .of .bool nullable

def isNumeric : TypeKind → Bool
  | .i64 => true
  | .f64 => true
  | _ => false

/-- One column visible in the plan. -/
structure Slot where
  qualifier : Option String
  name : String
  ty : FieldType
  deriving DecidableEq, Repr

/-- The columns visible at a plan node. -/
structure RowType where
  slots : List Slot
  deriving DecidableEq, Repr

/-- The column a slot binds. -/
def Slot.column (s : Slot) : BoundColumn := ⟨s.qualifier, s.name⟩

/-- One column of a query's output. -/
structure OutputColumn where
  name : String
  kind : Option TypeKind
  nullable : Bool
  deriving DecidableEq, Repr

namespace RowType

/-- The columns of a base table. -/
def ofTable (def_ : TableDef) (qualifier : String) : RowType :=
  ⟨def_.columns.zipIdx.map
    (fun (col, i) => ⟨some qualifier, col.name, .of col.kind (def_.isNullable i)⟩)⟩

/-- Resolve a reference against the remaining slots, given the hit so far. A second match of
an unqualified name is ambiguous; of a qualified one the last match counts. -/
def resolveFrom (qualifier : Option String) (column : String) :
    Option FieldType → List Slot → ValidateResult FieldType
  | hit, [] => hit.elim (.error (.unknownColumn qualifier column)) .ok
  | hit, slot :: slots =>
    if slot.column.named qualifier column then
      if hit.isSome && qualifier.isNone then .error (.ambiguousColumn column)
      else resolveFrom qualifier column (some slot.ty) slots
    else resolveFrom qualifier column hit slots

/-- Resolve a column reference to its type. -/
def resolve (row : RowType) (qualifier : Option String) (column : String) :
    ValidateResult FieldType :=
  resolveFrom qualifier column none row.slots

/-- Every column made nullable. -/
def madeNullable (row : RowType) : RowType :=
  ⟨row.slots.map (fun s => { s with ty := { s.ty with nullable := true } })⟩

def concat (row other : RowType) : RowType := ⟨row.slots ++ other.slots⟩

def intoOutput (row : RowType) : List OutputColumn :=
  row.slots.map (fun s => ⟨s.name, s.ty.kind, s.ty.nullable⟩)

end RowType

/-! ## Expressions -/

/-- The static type of a literal. -/
def literalType (value : Value) : FieldType :=
  match value.kind with
  | none => .null
  | some kind => .of kind false

/-- Whether two operand kinds compare. -/
def compatibleCmp : Option TypeKind → Option TypeKind → ValidateResult Unit
  | none, _ => .ok ()
  | _, none => .ok ()
  | some x, some y =>
    if x = .json ∨ y = .json then .error (.jsonNotOrderable "comparison")
    else if x = y ∨ (isNumeric x ∧ isNumeric y) then .ok ()
    else .error (.incompatibleComparison x y)

/-- The kind of a numeric operand. -/
def numericOperand : Option TypeKind → ValidateResult (Option TypeKind)
  | none => .ok none
  | some k => if isNumeric k then .ok (some k) else .error (.nonNumericArith k)

/-- The kind of an arithmetic result: floats are contagious. -/
def arithKind : Option TypeKind → Option TypeKind → Option TypeKind
  | some .f64, _ => some .f64
  | _, some .f64 => some .f64
  | some .i64, _ => some .i64
  | _, some .i64 => some .i64
  | _, _ => none

/-- The common kind of two branches. -/
def unify : Option TypeKind → Option TypeKind → ValidateResult (Option TypeKind)
  | none, k => .ok k
  | k, none => .ok k
  | some a, some b =>
    if a = b then .ok (some a)
    else if isNumeric a && isNumeric b then .ok (some .f64)
    else .error (.incompatibleKinds a b)

/-- A boolean (or untyped null) operand of a connective. -/
def booleanOperand (context : String) (ty : FieldType) : ValidateResult Unit :=
  match ty.kind with
  | some .bool => .ok ()
  | none => .ok ()
  | some other => .error (.nonBooleanPredicate context other)

/-- A text (or untyped null) operand of `like`. -/
def textOperand (ty : FieldType) : ValidateResult Unit :=
  match ty.kind with
  | some .text => .ok ()
  | none => .ok ()
  | some other => .error (.nonTextLike other)

section

variable (row : RowType)

mutual

/-- Type-check an ordinary expression. -/
def checkExpr : Expr → ValidateResult FieldType
  | .column table column => row.resolve table column
  | .literal value => .ok (literalType value)
  | .cmp _ lhs rhs => do
    let l ← checkExpr lhs
    let r ← checkExpr rhs
    compatibleCmp l.kind r.kind
    pure (.boolean (l.nullable || r.nullable))
  | .and items => checkBools false items
  | .or items => checkBools false items
  | .not inner => do
    let ty ← checkExpr inner
    booleanOperand "boolean" ty
    pure (.boolean ty.nullable)
  | .arith _ lhs rhs => do
    let l ← checkExpr lhs
    let r ← checkExpr rhs
    let lk ← numericOperand l.kind
    let rk ← numericOperand r.kind
    pure ⟨arithKind lk rk, l.nullable || r.nullable⟩
  | .isNull inner => do
    let _ ← checkExpr inner
    pure (.boolean false)
  | .isNotNull inner => do
    let _ ← checkExpr inner
    pure (.boolean false)
  | .between expr lo hi => do
    let e ← checkExpr expr
    let l ← checkExpr lo
    let h ← checkExpr hi
    compatibleCmp e.kind l.kind
    compatibleCmp e.kind h.kind
    pure (.boolean (e.nullable || l.nullable || h.nullable))
  | .inList expr list => do
    let e ← checkExpr expr
    checkIn e.kind e.nullable list
  | .like expr _ _ => do
    let e ← checkExpr expr
    textOperand e
    pure (.boolean e.nullable)
  | .coalesce items => checkCoalesce none true items
  | .nullIf lhs rhs => do
    let l ← checkExpr lhs
    let r ← checkExpr rhs
    compatibleCmp l.kind r.kind
    pure ⟨l.kind, true⟩
  | .cast expr to_ => do
    let e ← checkExpr expr
    if to_ = .json ∨ e.kind = some .json then .error .jsonCast
    else pure ⟨some to_, e.nullable⟩
  | .agg _ _ => .error .aggregateNotAllowed

/-- The items of a connective. -/
def checkBools (nullable : Bool) : List Expr → ValidateResult FieldType
  | [] => .ok (.boolean nullable)
  | item :: items => do
    let ty ← checkExpr item
    booleanOperand "boolean" ty
    checkBools (nullable || ty.nullable) items

/-- The candidates of an `in`. -/
def checkIn (kind : Option TypeKind) (nullable : Bool) : List Expr → ValidateResult FieldType
  | [] => .ok (.boolean nullable)
  | item :: items => do
    let t ← checkExpr item
    compatibleCmp kind t.kind
    checkIn kind (nullable || t.nullable) items

/-- The branches of a `coalesce`. -/
def checkCoalesce (kind : Option TypeKind) (nullable : Bool) :
    List Expr → ValidateResult FieldType
  | [] => .ok ⟨kind, nullable⟩
  | item :: items => do
    let t ← checkExpr item
    let kind ← unify kind t.kind
    checkCoalesce kind (nullable && t.nullable) items

end

/-- A predicate must be boolean or an untyped null. -/
def checkPredicate (expr : Expr) (context : String) : ValidateResult Unit := do
  let ty ← checkExpr row expr
  booleanOperand context ty

/-- A key must be orderable, which json is not. -/
def checkKey (context : String) (expr : Expr) : ValidateResult Unit := do
  let ty ← checkExpr row expr
  if ty.kind = some .json then .error (.jsonNotOrderable context) else pure ()

/-- The type of an aggregate call over an argument. -/
def aggType (func : AggFunc) (arg : FieldType) : FieldType :=
  match func with
  | .count => .of .i64 false
  | .sum => ⟨arg.kind, true⟩
  | .min => ⟨arg.kind, true⟩
  | .max => ⟨arg.kind, true⟩
  | .avg => .of .f64 true

/-- Type-check a group's aggregate output. -/
def checkAggregate : Expr → ValidateResult FieldType
  | .agg func arg => do
    let ty ← checkExpr row arg
    pure (aggType func ty)
  | _ => .error .aggregateNotAllowed

end

/-! ## Plans -/

def ofSchema {α : Type} : CatResult α → ValidateResult α
  | .ok a => .ok a
  | .error e => .error (.schema e)

/-- The definition of a table, or `UnknownTable`. -/
def lookup (schema : SchemaView) (table : String) : ValidateResult TableDef := do
  let def_ ← ofSchema (schema table)
  def_.elim (.error (.unknownTable table)) .ok

/-- The slot of a named output. -/
def outputSlot (name : String) (ty : FieldType) : Slot := ⟨none, name, ty⟩

/-- A join predicate, when there is one. -/
def checkOn (row : RowType) : Option Expr → ValidateResult Unit
  | none => .ok ()
  | some on => checkPredicate row on "join on"

/-- Validate a plan and return its output row type. -/
def checkPlan (schema : SchemaView) : Plan → ValidateResult RowType
  | .scan table alias_ => do
    let def_ ← lookup schema table
    pure (.ofTable def_ (alias_.getD table))
  | .indexScan table alias_ _ _ => do
    let def_ ← lookup schema table
    pure (.ofTable def_ (alias_.getD table))
  | .pkLookup table alias_ _ => do
    let def_ ← lookup schema table
    pure (.ofTable def_ (alias_.getD table))
  | .filter input pred => do
    let row ← checkPlan schema input
    checkPredicate row pred "where"
    pure row
  | .join kind left right on => do
    let left ← checkPlan schema left
    let right ← checkPlan schema right
    let combined := left.concat (if kind = .left then right.madeNullable else right)
    checkOn combined on
    pure combined
  | .aggregate input by_ aggs => do
    let row ← checkPlan schema input
    by_.forM (checkKey row "group by")
    let outs ← aggs.mapM (fun a => do
      let ty ← checkAggregate row a.2
      pure (outputSlot a.1 ty))
    pure ⟨row.slots ++ outs⟩
  | .project input items => do
    let row ← checkPlan schema input
    let outs ← items.zipIdx.mapM (fun (item, i) => do
      let ty ← checkExpr row (itemExpr item)
      pure (outputSlot (outputNameOf item i) ty))
    pure ⟨outs⟩
  | .distinct input => checkPlan schema input
  | .limit input _ _ => checkPlan schema input
  | .cursor input _ => checkPlan schema input
  | .sort input keys => do
    let row ← checkPlan schema input
    keys.forM (fun key => checkKey row "order by" key.expr)
    pure row

def ofLower {α : Type} : Except LowerError α → ValidateResult α
  | .ok a => .ok a
  | .error e => .error (.lower e)

/-- Lower a select and validate the plan, returning the output schema. -/
def validateSelect (select : Select) (schema : SchemaView) :
    ValidateResult (List OutputColumn) := do
  let plan ← ofLower (lower select)
  let row ← checkPlan schema plan
  pure row.intoOutput

/-! ## Walks over expressions -/

mutual

/-- Every column reference in an expression. -/
def columnRefs : Expr → List (Option String × String)
  | .column table column => [(table, column)]
  | .literal _ => []
  | .cmp _ lhs rhs => columnRefs lhs ++ columnRefs rhs
  | .arith _ lhs rhs => columnRefs lhs ++ columnRefs rhs
  | .nullIf lhs rhs => columnRefs lhs ++ columnRefs rhs
  | .and items => columnRefsAll items
  | .or items => columnRefsAll items
  | .coalesce items => columnRefsAll items
  | .not inner => columnRefs inner
  | .isNull inner => columnRefs inner
  | .isNotNull inner => columnRefs inner
  | .agg _ arg => columnRefs arg
  | .cast expr _ => columnRefs expr
  | .like expr _ _ => columnRefs expr
  | .between expr lo hi => columnRefs expr ++ columnRefs lo ++ columnRefs hi
  | .inList expr list => columnRefs expr ++ columnRefsAll list

def columnRefsAll : List Expr → List (Option String × String)
  | [] => []
  | item :: items => columnRefs item ++ columnRefsAll items

end

/-! ## Writes -/

mutual

/-- Whether an expression reads any column, which makes an assignment relative. -/
def referencesColumn : Expr → Bool
  | .column _ _ => true
  | .literal _ => false
  | .cmp _ lhs rhs => referencesColumn lhs || referencesColumn rhs
  | .arith _ lhs rhs => referencesColumn lhs || referencesColumn rhs
  | .nullIf lhs rhs => referencesColumn lhs || referencesColumn rhs
  | .and items => anyReferences items
  | .or items => anyReferences items
  | .coalesce items => anyReferences items
  | .not inner => referencesColumn inner
  | .isNull inner => referencesColumn inner
  | .isNotNull inner => referencesColumn inner
  | .agg _ arg => referencesColumn arg
  | .cast expr _ => referencesColumn expr
  | .like expr _ _ => referencesColumn expr
  | .between expr lo hi => referencesColumn expr || referencesColumn lo || referencesColumn hi
  | .inList expr list => referencesColumn expr || anyReferences list

def anyReferences : List Expr → Bool
  | [] => false
  | item :: items => referencesColumn item || anyReferences items

end

/-- Whether an expression is a reference to a guarded or rowversion column of the table. -/
def guardsColumn (def_ : TableDef) : Expr → Bool
  | .column table column =>
    table.all (fun t => t = def_.name) &&
      def_.columns.any (fun c => c.name = column && (c.update = .guarded || c.rowversion))
  | _ => false

mutual

/-- Whether a selector carries a comparison that guards against a lost update. Guards under
`or` and `not` are not credited. -/
def hasGuardPredicate (def_ : TableDef) : Expr → Bool
  | .and items => anyGuards def_ items
  | .cmp _ lhs rhs => guardsColumn def_ lhs || guardsColumn def_ rhs
  | .between expr _ _ => guardsColumn def_ expr
  | .inList expr _ => guardsColumn def_ expr
  | _ => false

def anyGuards (def_ : TableDef) : List Expr → Bool
  | [] => false
  | item :: items => hasGuardPredicate def_ item || anyGuards def_ items

end

/-- The definition of a column to be written. -/
def column (def_ : TableDef) (name : String) : ValidateResult ColumnDef :=
  ((def_.colIndex name).bind (fun i => def_.columns[i]?)).elim
    (.error (.unknownColumn (some def_.name) name)) .ok

def rejectEngineManaged (col : ColumnDef) : ValidateResult Unit :=
  if col.rowversion || col.onUpdateNow then .error (.engineManagedWrite col.name) else .ok ()

/-- Whether an expression's kind may be assigned to a column. -/
def assignable (name : String) (col : ColumnDef) (ty : FieldType) : ValidateResult Unit :=
  match ty.kind with
  | none => .ok ()
  | some kind =>
    if kind = col.kind then .ok () else .error (.assignTypeMismatch name col.kind kind)

def validateInsert (insert : Insert) (schema : SchemaView) : ValidateResult Unit := do
  let def_ ← lookup schema insert.table
  insert.rows.forM (fun row => row.forM (fun (name, _) => do
    let col ← column def_ name
    rejectEngineManaged col))

/-- The mandatory selector of a write, with its predicate checked. -/
def checkSelector (def_ : TableDef) : Option Selector → ValidateResult Selector
  | none => .error .missingSelector
  | some .all => .ok .all
  | some (.where_ pred) => do
    checkPredicate (.ofTable def_ def_.name) pred "where"
    pure (.where_ pred)

def validateDelete (delete : Delete) (schema : SchemaView) : ValidateResult Unit := do
  let def_ ← lookup schema delete.table
  let _ ← checkSelector def_ delete.selector
  pure ()

/-- Whether a selector carries a guard or version condition. -/
def guardedBy (def_ : TableDef) : Selector → Bool
  | .where_ pred => hasGuardPredicate def_ pred
  | .all => false

/-- One assignment of an update. A guarded column takes a relative expression, or one under a
guard condition; `unconditional` never rescues it. -/
def checkSet (def_ : TableDef) (guarded unconditional : Bool) (name : String) (expr : Expr) :
    ValidateResult Unit := do
  let col ← column def_ name
  if def_.pk.contains name then .error (.pkImmutable name)
  else do
    rejectEngineManaged col
    let ty ← checkExpr (.ofTable def_ def_.name) expr
    assignable name col ty
    if col.update = .guarded && (unconditional || (!referencesColumn expr && !guarded)) then
      .error (.guardedBlindSet name)
    else pure ()

def validateUpdate (update : Update) (schema : SchemaView) : ValidateResult Unit := do
  let def_ ← lookup schema update.table
  let selector ← checkSelector def_ update.selector
  update.set.forM (fun (name, expr) =>
    checkSet def_ (guardedBy def_ selector) update.unconditional name expr)

/-- What a validated request is. -/
inductive Validated where
  | read (schema : List OutputColumn)
  | write
  deriving DecidableEq, Repr

mutual

/-- Validate one request. -/
def validate (schema : SchemaView) : Request → ValidateResult Validated
  | .select select => do
    let out ← validateSelect select schema
    pure (.read out)
  | .explain select => do
    let out ← validateSelect select schema
    pure (.read out)
  | .insert ins => do
    validateInsert ins schema
    pure .write
  | .update upd => do
    validateUpdate upd schema
    pure .write
  | .delete del => do
    validateDelete del schema
    pure .write
  | .transaction ops => do
    validateOps schema ops
    pure .write

def validateOps (schema : SchemaView) : List Request → ValidateResult Unit
  | [] => .ok ()
  | op :: ops => do
    let _ ← validate schema op
    validateOps schema ops

end

end Edb.Query
