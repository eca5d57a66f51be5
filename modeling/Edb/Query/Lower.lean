import Edb.Proto.Ast

/-!
# From the surface to the plan

The pipeline form folds its stages left to right into a plan. The clause form is sugar: it
desugars into a fixed stage order and takes the same fold. Lowering enforces the structural
grammar only; names and types belong to the validator.
-/

namespace Edb.Query

open Edb.Proto

/-- How a select can fail to lower. -/
inductive LowerError where
  | emptyPipeline
  | missingSource (found : String)
  | misplacedScan
  | notAnAggregate (name : String)
  | nestedAggregate
  | havingWithoutGroup
  | duplicateAggName (name : String)
  | missingFrom
  deriving DecidableEq, Repr

def stageName : Stage → String
  | .scan _ => "scan"
  | .«match» _ => "match"
  | .join _ => "join"
  | .group _ _ => "group"
  | .sort _ => "sort"
  | .project _ => "project"
  | .distinct _ => "distinct"
  | .limit _ _ => "limit"
  | .cursor _ => "cursor"

/-- Whether an expression is an aggregate call. -/
def isAgg : Expr → Bool
  | .agg _ _ => true
  | _ => false

/-- Put one stage on top of a plan. -/
def lowerStage (plan : Plan) : Stage → Except LowerError Plan
  | .scan _ => .error .misplacedScan
  | .«match» pred => .ok (.filter plan pred)
  | .join join => .ok (.join join.kind plan (.scan join.table.table join.table.alias_) join.on)
  | .group by_ aggs =>
    match aggs.find? (fun a => !isAgg a.2) with
    | some (name, _) => .error (.notAnAggregate name)
    | none => .ok (.aggregate plan by_ aggs)
  | .sort keys => .ok (.sort plan keys)
  | .project items => .ok (.project plan items)
  | .distinct true => .ok (.distinct plan)
  | .distinct false => .ok plan
  | .limit limit offset => .ok (.limit plan limit offset)
  | .cursor token => .ok (.cursor plan token)

/-- Fold the stages over the scan at the head. -/
def lowerPipeline : List Stage → Except LowerError Plan
  | [] => .error .emptyPipeline
  | .scan table :: rest => rest.foldlM lowerStage (.scan table.table table.alias_)
  | head :: _ => .error (.missingSource (stageName head))

mutual

/-- Whether an expression contains an aggregate call anywhere. -/
def containsAgg : Expr → Bool
  | .agg _ _ => true
  | .column _ _ => false
  | .literal _ => false
  | .cmp _ lhs rhs => containsAgg lhs || containsAgg rhs
  | .arith _ lhs rhs => containsAgg lhs || containsAgg rhs
  | .nullIf lhs rhs => containsAgg lhs || containsAgg rhs
  | .and items => anyContainsAgg items
  | .or items => anyContainsAgg items
  | .coalesce items => anyContainsAgg items
  | .not inner => containsAgg inner
  | .isNull inner => containsAgg inner
  | .isNotNull inner => containsAgg inner
  | .between expr lo hi => containsAgg expr || containsAgg lo || containsAgg hi
  | .inList expr list => containsAgg expr || anyContainsAgg list
  | .like expr _ _ => containsAgg expr
  | .cast expr _ => containsAgg expr

def anyContainsAgg : List Expr → Bool
  | [] => false
  | item :: items => containsAgg item || anyContainsAgg items

end

/-- The alias and the expression of a select item. -/
def aliasAndExpr : Projection → Option String × Expr
  | .aliased name expr => (some name, expr)
  | .expr expr => (none, expr)

/-- One item of a clause select list: an aggregate becomes a named group output the list
then refers to by column. -/
def splitItem (aggs : List (String × Expr)) (item : Projection) :
    Except LowerError (List (String × Expr) × Projection) :=
  let (alias_, expr) := aliasAndExpr item
  match expr with
  | .agg func _ =>
    let name := alias_.getD func.name
    if aggs.any (fun a => a.1 == name) then .error (.duplicateAggName name)
    else .ok (aggs ++ [(name, expr)], .expr (.column none name))
  | _ => if containsAgg expr then .error .nestedAggregate else .ok (aggs, item)

/-- Split a select list into aggregate outputs and projection items. -/
def splitItems : List (String × Expr) → List Projection →
    Except LowerError (List (String × Expr) × List Projection)
  | aggs, [] => .ok (aggs, [])
  | aggs, item :: items => do
    let (aggs, item) ← splitItem aggs item
    let (aggs, items) ← splitItems aggs items
    pure (aggs, item :: items)

/-- The aggregate outputs and the projection of a clause. -/
def splitSelect : Option (List Projection) →
    Except LowerError (List (String × Expr) × Option (List Projection))
  | none => .ok ([], none)
  | some items => do
    let (aggs, list) ← splitItems [] items
    pure (aggs, some list)

/-- Desugar the clause form into its fixed-order pipeline. -/
def desugarClause (clause : ClauseSelect) : Except LowerError (List Stage) :=
  match clause.from with
  | none => .error .missingFrom
  | some table => do
    let head := [Stage.scan table] ++ clause.joins.map .join
      ++ (clause.where_.map Stage.match).toList
    let (aggs, project) ← splitSelect clause.select
    let grouped := !clause.groupBy.isEmpty || !aggs.isEmpty
    let group := if grouped then [Stage.group clause.groupBy aggs] else []
    if clause.having.isSome && !grouped then .error .havingWithoutGroup
    else pure (head ++ group ++ (clause.having.map Stage.match).toList
      ++ (project.map Stage.project).toList
      ++ (if clause.distinct then [Stage.distinct true] else [])
      ++ (if clause.orderBy.isEmpty then [] else [Stage.sort clause.orderBy])
      ++ (if clause.limit.isSome || clause.offset.isSome
          then [Stage.limit clause.limit (clause.offset.getD 0)] else [])
      ++ (clause.cursor.map Stage.cursor).toList)

/-- Lower either surface form. -/
def lower : Select → Except LowerError Plan
  | .pipeline stages => lowerPipeline stages
  | .clause clause => do
    let stages ← desugarClause clause
    lowerPipeline stages

end Edb.Query
