import Edb.Types.Value

/-!
# The query language

The surface syntax (expressions, pipeline stages, the clause form, writes) and the single
logical-plan tree both surface forms lower into. The validator, the planner and the two
executors only touch the plan.
-/

namespace Edb.Proto

open Edb.Types (Value TypeKind)

/-! ## Expressions -/

/-- A comparison operator. -/
inductive CmpOp where
  | eq
  | ne
  | lt
  | lte
  | gt
  | gte
  deriving DecidableEq, Repr

/-- The wire node name. -/
def CmpOp.name : CmpOp → String
  | eq => "eq"
  | ne => "ne"
  | lt => "lt"
  | lte => "lte"
  | gt => "gt"
  | gte => "gte"

/-- An arithmetic operator. -/
inductive ArithOp where
  | add
  | sub
  | mul
  | div
  | mod
  deriving DecidableEq, Repr

/-- The wire node name. -/
def ArithOp.name : ArithOp → String
  | add => "add"
  | sub => "sub"
  | mul => "mul"
  | div => "div"
  | mod => "mod"

/-- An aggregate function. -/
inductive AggFunc where
  | count
  | sum
  | min
  | max
  | avg
  deriving DecidableEq, Repr

/-- The wire node name. -/
def AggFunc.name : AggFunc → String
  | count => "count"
  | sum => "sum"
  | min => "min"
  | max => "max"
  | avg => "avg"

/-- One expression node. Column references are explicit and a bare scalar is a literal. -/
inductive Expr where
  | column (table : Option String) (column : String)
  | literal (value : Value)
  | cmp (op : CmpOp) (lhs rhs : Expr)
  | and (items : List Expr)
  | or (items : List Expr)
  | not (inner : Expr)
  | arith (op : ArithOp) (lhs rhs : Expr)
  | isNull (inner : Expr)
  | isNotNull (inner : Expr)
  | between (expr lo hi : Expr)
  | inList (expr : Expr) (list : List Expr)
  | like (expr : Expr) (pattern : String) (caseInsensitive : Bool)
  | coalesce (items : List Expr)
  | nullIf (lhs rhs : Expr)
  | cast (expr : Expr) (to_ : TypeKind)
  | agg (func : AggFunc) (arg : Expr)
  deriving Repr

/-! ## Pipeline and clause nodes -/

/-- A table reference with an optional alias. -/
structure TableRef where
  table : String
  alias_ : Option String
  deriving DecidableEq, Repr

/-- A join type. -/
inductive JoinKind where
  | inner
  | left
  | cross
  deriving DecidableEq, Repr

/-- The wire name. -/
def JoinKind.name : JoinKind → String
  | inner => "inner"
  | left => "left"
  | cross => "cross"

/-- One join; the predicate is required for inner and left joins and absent for cross. -/
structure JoinSpec where
  kind : JoinKind
  table : TableRef
  on : Option Expr
  deriving Repr

/-- A sort direction. -/
inductive Dir where
  | asc
  | desc
  deriving DecidableEq, Repr

/-- The wire name. -/
def Dir.name : Dir → String
  | asc => "asc"
  | desc => "desc"

/-- One sort key. -/
structure SortKey where
  expr : Expr
  dir : Dir
  deriving Repr

/-- One projection item. -/
inductive Projection where
  | expr (expr : Expr)
  | aliased (name : String) (expr : Expr)
  deriving Repr

/-- One pipeline stage. -/
inductive Stage where
  | scan (table : TableRef)
  | «match» (pred : Expr)
  | join (join : JoinSpec)
  | group (by_ : List Expr) (aggs : List (String × Expr))
  | sort (keys : List SortKey)
  | project (items : List Projection)
  | distinct (on : Bool)
  | limit (limit : Option Nat) (offset : Nat)
  | cursor (token : Bytes)
  deriving Repr

/-- The clause surface: sugar for a fixed-order pipeline. -/
structure ClauseSelect where
  «from» : Option TableRef
  joins : List JoinSpec
  where_ : Option Expr
  groupBy : List Expr
  having : Option Expr
  orderBy : List SortKey
  select : Option (List Projection)
  distinct : Bool
  limit : Option Nat
  offset : Option Nat
  cursor : Option Bytes
  deriving Repr

/-- A select in either surface form. -/
inductive Select where
  | pipeline (stages : List Stage)
  | clause (clause : ClauseSelect)
  deriving Repr

/-! ## Writes -/

/-- The row selector of an update or delete. -/
inductive Selector where
  | where_ (pred : Expr)
  | all
  deriving Repr

structure Insert where
  table : String
  rows : List (List (String × Value))
  deriving DecidableEq, Repr

structure Update where
  table : String
  selector : Option Selector
  set : List (String × Expr)
  unconditional : Bool
  deriving Repr

structure Delete where
  table : String
  selector : Option Selector
  deriving Repr

/-- One protocol request. -/
inductive Request where
  | select (select : Select)
  | insert (insert : Insert)
  | update (update : Update)
  | delete (delete : Delete)
  | transaction (ops : List Request)
  | explain (select : Select)
  deriving Repr

/-! ## The logical plan -/

/-- One operator of the plan tree. Lowering never emits `indexScan` or `pkLookup`; the
planner does. Counts are words, kept as naturals: an iterator never holds `2 ^ 64` rows. -/
inductive Plan where
  | scan (table : String) (alias_ : Option String)
  | indexScan (table : String) (alias_ : Option String) (index : String) (keyPrefix : List Value)
  | pkLookup (table : String) (alias_ : Option String) (key : List Value)
  | filter (input : Plan) (pred : Expr)
  | join (kind : JoinKind) (left right : Plan) (on : Option Expr)
  | aggregate (input : Plan) (by_ : List Expr) (aggs : List (String × Expr))
  | project (input : Plan) (items : List Projection)
  | distinct (input : Plan)
  | sort (input : Plan) (keys : List SortKey)
  | limit (input : Plan) (limit : Option Nat) (offset : Nat)
  | cursor (input : Plan) (token : Bytes)
  deriving Repr

end Edb.Proto
