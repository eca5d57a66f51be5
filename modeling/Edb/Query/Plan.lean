import Edb.Query.Validate

/-!
# The rule-based planner

A validated logical plan is rewritten into a physical one. A filter of equalities over a scan
becomes a primary-key lookup or an index scan; a filter over an inner or cross join is split
into conjuncts, each pushed onto the side it refers to.
-/

namespace Edb.Query

open Edb.Types Edb.Proto Edb.Catalog

def tableDef (schema : SchemaView) (table : String) : CatResult TableDef := do
  let def_ ← schema table
  okOr (.unknownTable table) def_

/-! ## Predicates -/

mutual

/-- Flatten a top-level conjunction into its conjuncts. -/
def flattenAnd : Expr → List Expr
  | .and items => flattenAll items
  | other => [other]

def flattenAll : List Expr → List Expr
  | [] => []
  | item :: items => flattenAnd item ++ flattenAll items

end

/-- Recombine conjuncts into one predicate. -/
def andOf : List Expr → Expr
  | [conjunct] => conjunct
  | conjuncts => .and conjuncts

/-- Wrap a plan in a filter of conjuncts, or leave it bare when there are none. -/
def wrapFilter (input : Plan) (conjuncts : List Expr) : Plan :=
  if conjuncts.isEmpty then input else .filter input (andOf conjuncts)

/-! ## Index selection -/

/-- The column name, if an expression refers to a column of the qualifier. -/
def columnHere (expr : Expr) (qualifier : String) : Option String :=
  match expr with
  | .column none column => some column
  | .column (some t) column => if t = qualifier then some column else none
  | _ => none

def asLiteral : Expr → Option Value
  | .literal v => some v
  | _ => none

/-- The column and the literal of a `col = literal`, in either operand order. -/
def equalityOn (expr : Expr) (qualifier : String) : Option (String × Value) :=
  match expr with
  | .cmp .eq lhs rhs =>
    match columnHere lhs qualifier, asLiteral rhs with
    | some name, some v => some (name, v)
    | _, _ =>
      match columnHere rhs qualifier, asLiteral lhs with
      | some name, some v => some (name, v)
      | _, _ => none
  | _ => none

/-- An equality constraint: the column, the value and the place of its conjunct. -/
structure Equality where
  column : String
  value : Value
  conjunct : Nat
  deriving DecidableEq, Repr

def equalities (conjuncts : List Expr) (qualifier : String) : List Equality :=
  conjuncts.zipIdx.filterMap (fun (c, i) =>
    (equalityOn c qualifier).map (fun (name, v) => ⟨name, v, i⟩))

/-- The equalities that pin the longest run of leading columns. -/
def covered (eqs : List Equality) : List String → List Equality
  | [] => []
  | col :: cols =>
    match eqs.find? (fun e => e.column == col) with
    | some e => e :: covered eqs cols
    | none => []

/-- The conjuncts the access path did not consume. -/
def residual (conjuncts : List Expr) (consumed : List Equality) : List Expr :=
  (conjuncts.zipIdx.filter
    (fun (_, i) => !(consumed.map Equality.conjunct).contains i)).map Prod.fst

/-- The first index whose covered prefix is the longest. -/
def bestIndex (eqs : List Equality) : List IndexDef → Option (String × List Equality) →
    Option (String × List Equality)
  | [], best => best
  | idx :: idxs, best =>
    let hit := covered eqs idx.columns
    if !hit.isEmpty && best.all (fun b => b.2.length < hit.length)
    then bestIndex eqs idxs (some (idx.name, hit))
    else bestIndex eqs idxs best

/-- The access path for a filter over a base scan. -/
def accessPath (def_ : TableDef) (table : String) (alias_ : Option String) (pred : Expr) : Plan :=
  let conjuncts := flattenAnd pred
  let eqs := equalities conjuncts (alias_.getD table)
  let key := covered eqs def_.pk
  -- a pinned primary key is a point lookup, better than any index
  if !def_.pk.isEmpty && key.length == def_.pk.length then
    wrapFilter (.pkLookup table alias_ (key.map Equality.value)) (residual conjuncts key)
  else
    match bestIndex eqs def_.indexes none with
    | none => .filter (.scan table alias_) pred
    | some (index, hit) =>
      wrapFilter (.indexScan table alias_ index (hit.map Equality.value)) (residual conjuncts hit)

def indexSelect (schema : SchemaView) (table : String) (alias_ : Option String) (pred : Expr) :
    CatResult Plan := do
  let def_ ← tableDef schema table
  pure (accessPath def_ table alias_ pred)

/-! ## Filter pushdown -/

/-- The columns a plan exposes. -/
def exposed (schema : SchemaView) : Plan → CatResult (List BoundColumn)
  | .scan table alias_ => do
    let def_ ← tableDef schema table
    pure (tableShape def_ (alias_.getD table)).cols
  | .indexScan table alias_ _ _ => do
    let def_ ← tableDef schema table
    pure (tableShape def_ (alias_.getD table)).cols
  | .pkLookup table alias_ _ => do
    let def_ ← tableDef schema table
    pure (tableShape def_ (alias_.getD table)).cols
  | .filter input _ => exposed schema input
  | .sort input _ => exposed schema input
  | .distinct input => exposed schema input
  | .limit input _ _ => exposed schema input
  | .cursor input _ => exposed schema input
  | .join _ left right _ => do
    let l ← exposed schema left
    let r ← exposed schema right
    pure (l ++ r)
  | .aggregate input _ aggs => do
    let cols ← exposed schema input
    pure (cols ++ aggs.map (fun a => ⟨none, a.1⟩))
  | .project _ items => .ok (projectShape items).cols

/-- Whether a reference resolves within a side's columns. -/
def resolvable (cols : List BoundColumn) (ref : Option String × String) : Bool :=
  cols.any (fun c => c.named ref.1 ref.2)

def refersOnlyTo (cols : List BoundColumn) (conjunct : Expr) : Bool :=
  (columnRefs conjunct).all (resolvable cols)

/-- A filter over one side, when something was pushed there. -/
def pushSide (place : Expr → CatResult Plan) (side : Plan) (conjuncts : List Expr) :
    CatResult Plan :=
  if conjuncts.isEmpty then .ok side else place (andOf conjuncts)

/-- Place a filter over an optimized input. -/
def buildFilter (schema : SchemaView) : Plan → Expr → CatResult Plan
  | .scan table alias_, pred => indexSelect schema table alias_ pred
  | .join kind left right on, pred =>
    if kind = .left then .ok (.filter (.join kind left right on) pred)
    else do
      let leftCols ← exposed schema left
      let rightCols ← exposed schema right
      let conjuncts := flattenAnd pred
      let toLeft := conjuncts.filter (refersOnlyTo leftCols)
      let rest := conjuncts.filter (fun c => !refersOnlyTo leftCols c)
      let toRight := rest.filter (refersOnlyTo rightCols)
      let keep := rest.filter (fun c => !refersOnlyTo rightCols c)
      let newLeft ← pushSide (buildFilter schema left) left toLeft
      let newRight ← pushSide (buildFilter schema right) right toRight
      pure (wrapFilter (.join kind newLeft newRight on) keep)
  | other, pred => .ok (.filter other pred)

/-- Bottom-up rewrite: optimize the children, then apply the local rule. -/
def optimize (schema : SchemaView) : Plan → CatResult Plan
  | .filter input pred => do
    let input ← optimize schema input
    buildFilter schema input pred
  | .join kind left right on => do
    let left ← optimize schema left
    let right ← optimize schema right
    pure (.join kind left right on)
  | .aggregate input by_ aggs => do
    let input ← optimize schema input
    pure (.aggregate input by_ aggs)
  | .project input items => do
    let input ← optimize schema input
    pure (.project input items)
  | .distinct input => do
    let input ← optimize schema input
    pure (.distinct input)
  | .sort input keys => do
    let input ← optimize schema input
    pure (.sort input keys)
  | .limit input limit offset => do
    let input ← optimize schema input
    pure (.limit input limit offset)
  | .cursor input token => do
    let input ← optimize schema input
    pure (.cursor input token)
  | other => .ok other

/-- Rewrite a validated logical plan into a physical plan. -/
def plan (logical : Plan) (schema : SchemaView) : CatResult Plan := optimize schema logical

end Edb.Query
