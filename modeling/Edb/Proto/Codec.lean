import Edb.Proto.Ast
import Edb.Proto.Wire

/-!
# Requests on the wire

The strict mapping of a decoded document onto a request, which refuses unknown nodes, unknown
fields and wrong shapes, and the canonical encoding of a request.
-/

namespace Edb.Proto

open Edb.Types Edb.Lib

/-- The protocol version this build speaks. -/
def protocolVersion : Int64 := 1

/-! ## Fields -/

/-- The entries of a map. -/
abbrev Entries := List (String × Doc)

def find (map : Entries) (key : String) : Option Doc :=
  (map.find? (fun e => e.1 = key)).map Prod.snd

def wrong (node field expected : String) (found : Doc) : ProtoError :=
  .wrongShape node field expected found.shape

def asMap (doc : Doc) (node field : String) : ProtoResult Entries :=
  match doc with
  | .map entries => .ok entries
  | other => .error (wrong node field "map" other)

def asArray (doc : Doc) (node field : String) : ProtoResult (List Doc) :=
  match doc with
  | .array items => .ok items
  | other => .error (wrong node field "array" other)

def asStr (doc : Doc) (node field : String) : ProtoResult String :=
  match doc with
  | .str s => .ok s
  | other => .error (wrong node field "string" other)

def asBool (doc : Doc) (node field : String) : ProtoResult Bool :=
  match doc with
  | .bool b => .ok b
  | other => .error (wrong node field "bool" other)

def asU64 (doc : Doc) (node field : String) : ProtoResult Nat :=
  match doc with
  | .int n =>
    if 0 ≤ n.toInt then .ok n.toInt.toNat else .error (.invalidValue node field (toString n))
  | other => .error (wrong node field "non-negative int" other)

def missing (node field : String) : ProtoError := .missingField node field

def req (map : Entries) (node field : String) : ProtoResult Doc :=
  match find map field with
  | none => .error (missing node field)
  | some doc => .ok doc

def reqStr (map : Entries) (node field : String) : ProtoResult String := do
  let doc ← req map node field
  asStr doc node field

/-- Refuse any key outside `allowed`. -/
def only (map : Entries) (node : String) (allowed : List String) : ProtoResult Unit :=
  map.forM fun e => if e.1 ∈ allowed then .ok () else .error (.unknownField node e.1)

/-- An optional field, read by `f` when it is there. -/
def optional {α : Type} (map : Entries) (key : String) (f : Doc → ProtoResult α) :
    ProtoResult (Option α) :=
  match find map key with
  | none => .ok none
  | some doc => do
    let a ← f doc
    pure (some a)

/-! ## Expressions -/

def columnFrom (body : Doc) : ProtoResult Expr :=
  match body with
  | .str name => .ok (.column none name)
  | .array [table, column] => do
    let table ← asStr table "expression" "col table"
    let column ← asStr column "expression" "col name"
    pure (.column (some table) column)
  | .array items => .error (wrong "expression" "col" "[table, column] pair" (.array items))
  | other => .error (wrong "expression" "col" "string or [table, column] pair" other)

def typeKindFromName (name : String) : Option TypeKind :=
  match name with
  | "bool" => some .bool
  | "i64" => some .i64
  | "f64" => some .f64
  | "text" => some .text
  | "blob" => some .blob
  | "uuid" => some .uuid
  | "json" => some .json
  | "timestamp" => some .timestamp
  | _ => none

mutual

/-- Scalars are literals, a single-key map is an operator node, anything else is outside the
grammar. -/
def exprFrom : Doc → ProtoResult Expr
  | .null => .ok (.literal .null)
  | .bool b => .ok (.literal (.bool b))
  | .int n => .ok (.literal (.i64 n))
  | .float f => .ok (.literal (.f64 f))
  | .str s => .ok (.literal (.text s))
  | .bin b => .ok (.literal (.blob b))
  | .array items =>
    .error (wrong "expression" "expression" "scalar or node map" (.array items))
  | .map [(name, body)] =>
    let cmp (op : CmpOp) : ProtoResult Expr := do
      let (lhs, rhs) ← pair body "expression" op.name
      pure (.cmp op lhs rhs)
    let arith (op : ArithOp) : ProtoResult Expr := do
      let (lhs, rhs) ← pair body "expression" op.name
      pure (.arith op lhs rhs)
    let agg (func : AggFunc) : ProtoResult Expr := do
      let arg ← exprFrom body
      pure (.agg func arg)
    match name with
    | "col" => columnFrom body
    | "eq" => cmp .eq
    | "ne" => cmp .ne
    | "lt" => cmp .lt
    | "lte" => cmp .lte
    | "gt" => cmp .gt
    | "gte" => cmp .gte
    | "and" => do
      let items ← exprList body "and"
      pure (.and items)
    | "or" => do
      let items ← exprList body "or"
      pure (.or items)
    | "not" => do
      let inner ← exprFrom body
      pure (.not inner)
    | "add" => arith .add
    | "sub" => arith .sub
    | "mul" => arith .mul
    | "div" => arith .div
    | "mod" => arith .mod
    | "is_null" => do
      let inner ← exprFrom body
      pure (.isNull inner)
    | "is_not_null" => do
      let inner ← exprFrom body
      pure (.isNotNull inner)
    | "between" => betweenFrom body
    | "in" => inFrom body
    | "like" => likeFrom body false
    | "ilike" => likeFrom body true
    | "coalesce" => do
      let items ← exprList body "coalesce"
      pure (.coalesce items)
    | "nullif" => do
      let (lhs, rhs) ← pair body "expression" "nullif"
      pure (.nullIf lhs rhs)
    | "cast" => castFrom body
    | "count" => agg .count
    | "sum" => agg .sum
    | "min" => agg .min
    | "max" => agg .max
    | "avg" => agg .avg
    | other => .error (.unknownNode "expression" other)
  | .map entries => .error (wrong "expression" "expression" "single-key map" (.map entries))

def pair : Doc → String → String → ProtoResult (Expr × Expr)
  | .array [a, b], _, _ => do
    let a ← exprFrom a
    let b ← exprFrom b
    pure (a, b)
  | .array items, node, field => .error (wrong node field "[a, b] pair" (.array items))
  | other, node, field => .error (wrong node field "array" other)

/-- A list of expressions, which may not be empty. -/
def exprList : Doc → String → ProtoResult (List Expr)
  | .array [], field => .error (.invalidValue "expression" field "[]")
  | .array (item :: items), _ => do
    let e ← exprFrom item
    let es ← exprItems items
    pure (e :: es)
  | other, field => .error (wrong "expression" field "array" other)

def exprItems : List Doc → ProtoResult (List Expr)
  | [] => .ok []
  | item :: items => do
    let e ← exprFrom item
    let es ← exprItems items
    pure (e :: es)

def betweenFrom : Doc → ProtoResult Expr
  | .array [expr, lo, hi] => do
    let expr ← exprFrom expr
    let lo ← exprFrom lo
    let hi ← exprFrom hi
    pure (.between expr lo hi)
  | .array items => .error (wrong "expression" "between" "[x, lo, hi] triple" (.array items))
  | other => .error (wrong "expression" "between" "array" other)

def inFrom : Doc → ProtoResult Expr
  | .array [expr, list] => do
    let expr ← exprFrom expr
    let list ← exprList list "in"
    pure (.inList expr list)
  | .array items => .error (wrong "expression" "in" "[x, [values]] pair" (.array items))
  | other => .error (wrong "expression" "in" "array" other)

def likeFrom : Doc → Bool → ProtoResult Expr
  | .array [expr, pattern], caseInsensitive => do
    let expr ← exprFrom expr
    let pattern ← asStr pattern "expression" "pattern"
    pure (.like expr pattern caseInsensitive)
  | .array items, _ => .error (wrong "expression" "like" "[x, pattern] pair" (.array items))
  | other, _ => .error (wrong "expression" "like" "array" other)

/-- The type is looked at before the operand. -/
def castFrom : Doc → ProtoResult Expr
  | .array [expr, to_] => do
    let typeName ← asStr to_ "expression" "cast type"
    match typeKindFromName typeName with
    | none => .error (.invalidValue "expression" "cast type" typeName)
    | some to_ =>
      let expr ← exprFrom expr
      pure (.cast expr to_)
  | .array items => .error (wrong "expression" "cast" "[x, type] pair" (.array items))
  | other => .error (wrong "expression" "cast" "array" other)

end

/-! ## Selects -/

def tokenFrom (doc : Doc) (node field : String) : ProtoResult Bytes :=
  match doc with
  | .bin bytes => .ok bytes
  | other => .error (wrong node field "bin" other)

def tableRefFrom (doc : Doc) (field : String) : ProtoResult TableRef := do
  let map ← asMap doc "table ref" field
  only map "table ref" ["table", "as"]
  let table ← reqStr map "table ref" "table"
  let alias_ ← optional map "as" (asStr · "table ref" "as")
  pure ⟨table, alias_⟩

def joinKindFrom (name : String) : ProtoResult JoinKind :=
  match name with
  | "inner" => .ok .inner
  | "left" => .ok .left
  | "cross" => .ok .cross
  | other => .error (.invalidValue "join" "type" other)

def joinSpecFrom (doc : Doc) : ProtoResult JoinSpec := do
  let map ← asMap doc "join" "join"
  only map "join" ["type", "table", "on"]
  let kindName ← reqStr map "join" "type"
  let kind ← joinKindFrom kindName
  let tableDoc ← req map "join" "table"
  let table ← tableRefFrom tableDoc "table"
  let on ← optional map "on" exprFrom
  -- cross joins carry no predicate, the others must
  match kind, on with
  | .cross, some _ => .error (.unknownField "cross join" "on")
  | .inner, none => .error (missing "join" "on")
  | .left, none => .error (missing "join" "on")
  | _, _ => pure ⟨kind, table, on⟩

def dirFrom (name : String) : ProtoResult Dir :=
  match name with
  | "asc" => .ok .asc
  | "desc" => .ok .desc
  | other => .error (.invalidValue "sort key" "dir" other)

def sortKeyFrom (field : String) (item : Doc) : ProtoResult SortKey := do
  let map ← asMap item "sort key" field
  only map "sort key" ["expr", "dir"]
  let exprDoc ← req map "sort key" "expr"
  let expr ← exprFrom exprDoc
  let dir ← optional map "dir" fun doc => do
    let name ← asStr doc "sort key" "dir"
    dirFrom name
  pure ⟨expr, dir.getD .asc⟩

def sortKeysFrom (doc : Doc) (node field : String) : ProtoResult (List SortKey) := do
  let items ← asArray doc node field
  items.mapM (sortKeyFrom field)

def projectionFrom (doc : Doc) : ProtoResult Projection :=
  match doc with
  | .map [("as", body)] => do
    let parts ← asArray body "as" "as"
    match parts with
    | [name, expr] => do
      let name ← asStr name "as" "name"
      let expr ← exprFrom expr
      pure (.aliased name expr)
    | _ => .error (wrong "as" "as" "[name, expr] pair" doc)
  | doc => do
    let expr ← exprFrom doc
    pure (.expr expr)

def projectionsFrom (doc : Doc) (node field : String) : ProtoResult (List Projection) := do
  let items ← asArray doc node field
  items.mapM projectionFrom

/-- The expressions of an array field. -/
def exprsFrom (doc : Doc) (node field : String) : ProtoResult (List Expr) := do
  let items ← asArray doc node field
  items.mapM exprFrom

/-- The named expressions of a map field, in wire order. -/
def namedExprsFrom (doc : Doc) (node field : String) : ProtoResult (List (String × Expr)) := do
  let entries ← asMap doc node field
  entries.mapM fun e => do
    let expr ← exprFrom e.2
    pure (e.1, expr)

def groupFrom (body : Doc) : ProtoResult Stage := do
  let group ← asMap body "group" "group"
  only group "group" ["by", "agg"]
  let by_ ← optional group "by" (exprsFrom · "group" "by")
  let aggs ← optional group "agg" (namedExprsFrom · "group" "agg")
  pure (.group (by_.getD []) (aggs.getD []))

def limitFrom (map : Entries) : ProtoResult Stage := do
  only map "limit stage" ["limit", "offset"]
  let limit ← optional map "limit" (asU64 · "limit stage" "limit")
  let offset ← optional map "offset" (asU64 · "limit stage" "offset")
  pure (.limit limit (offset.getD 0))

/-- `limit` and `offset` form one stage with up to two keys; every other stage is a single-key
map. -/
def stageFrom (doc : Doc) : ProtoResult Stage := do
  let map ← asMap doc "stage" "stage"
  if map.any (fun e => e.1 = "limit" ∨ e.1 = "offset") then limitFrom map
  else
    match map with
    | [(name, body)] =>
      match name with
      | "scan" => do
        let table ← tableRefFrom body "scan"
        pure (.scan table)
      | "match" => do
        let pred ← exprFrom body
        pure (.match pred)
      | "join" => do
        let join ← joinSpecFrom body
        pure (.join join)
      | "group" => groupFrom body
      | "sort" => do
        let keys ← sortKeysFrom body "sort" "sort"
        pure (.sort keys)
      | "project" => do
        let items ← projectionsFrom body "project" "project"
        pure (.project items)
      | "distinct" => do
        let on ← asBool body "distinct" "distinct"
        pure (.distinct on)
      | "cursor" => do
        let token ← tokenFrom body "cursor" "cursor"
        pure (.cursor token)
      | other => .error (.unknownNode "stage" other)
    | _ => .error (wrong "stage" "stage" "single-key map" doc)

def clauseKeys : List String :=
  ["op", "v", "from", "joins", "where", "group_by", "having", "order_by", "select", "distinct",
    "limit", "offset", "cursor", "pipeline"]

def joinsFrom (doc : Doc) (node field : String) : ProtoResult (List JoinSpec) := do
  let items ← asArray doc node field
  items.mapM joinSpecFrom

def clauseFrom (map : Entries) : ProtoResult ClauseSelect := do
  let fromDoc ← req map "select" "from"
  let table ← tableRefFrom fromDoc "from"
  let joins ← optional map "joins" (joinsFrom · "select" "joins")
  let where_ ← optional map "where" exprFrom
  let groupBy ← optional map "group_by" (exprsFrom · "select" "group_by")
  let having ← optional map "having" exprFrom
  let orderBy ← optional map "order_by" (sortKeysFrom · "select" "order_by")
  let select ← optional map "select" (projectionsFrom · "select" "select")
  let distinct ← optional map "distinct" (asBool · "select" "distinct")
  let limit ← optional map "limit" (asU64 · "select" "limit")
  let offset ← optional map "offset" (asU64 · "select" "offset")
  let cursor ← optional map "cursor" (tokenFrom · "select" "cursor")
  pure ⟨some table, joins.getD [], where_, groupBy.getD [], having, orderBy.getD [], select,
    distinct.getD false, limit, offset, cursor⟩

def selectFrom (map : Entries) : ProtoResult Select := do
  only map "select" clauseKeys
  match find map "pipeline" with
  | some stages => do
    -- pipeline form: no clause keys may ride along
    only map "select" ["op", "v", "pipeline"]
    let items ← asArray stages "select" "pipeline"
    let stages ← items.mapM stageFrom
    pure (.pipeline stages)
  | none => do
    let clause ← clauseFrom map
    pure (.clause clause)

/-! ## Writes -/

/-- Scalars map to their value; a container is a `json` document, kept as its re-encoded
bytes. -/
def rowValueFrom (doc : Doc) : Value :=
  match doc with
  | .null => .null
  | .bool b => .bool b
  | .int n => .i64 n
  | .float f => .f64 f
  | .str s => .text s
  | .bin b => .blob b
  | .array items => .json (encodeDoc (.array items))
  | .map entries => .json (encodeDoc (.map entries))

def rowFrom (row : Doc) : ProtoResult (List (String × Value)) := do
  let entries ← asMap row "insert" "rows"
  pure (entries.map fun e => (e.1, rowValueFrom e.2))

def insertFrom (map : Entries) : ProtoResult Insert := do
  only map "insert" ["op", "v", "table", "rows"]
  let table ← reqStr map "insert" "table"
  let rowsDoc ← req map "insert" "rows"
  let items ← asArray rowsDoc "insert" "rows"
  let rows ← items.mapM rowFrom
  pure ⟨table, rows⟩

def selectorFrom (map : Entries) (node : String) : ProtoResult (Option Selector) :=
  match find map "where", find map "all" with
  | some _, some _ => .error (.invalidValue node "all" "set together with where")
  | some doc, none => do
    let pred ← exprFrom doc
    pure (some (.where_ pred))
  | none, some doc => do
    let all ← asBool doc node "all"
    if all then pure (some .all) else .error (.invalidValue node "all" "false")
  | none, none => .ok none

def updateFrom (map : Entries) : ProtoResult Update := do
  only map "update" ["op", "v", "table", "where", "all", "set", "unconditional"]
  let table ← reqStr map "update" "table"
  let selector ← selectorFrom map "update"
  let setDoc ← req map "update" "set"
  let set ← namedExprsFrom setDoc "update" "set"
  let unconditional ← optional map "unconditional" (asBool · "update" "unconditional")
  pure ⟨table, selector, set, unconditional.getD false⟩

def deleteFrom (map : Entries) : ProtoResult Delete := do
  only map "delete" ["op", "v", "table", "where", "all"]
  let table ← reqStr map "delete" "table"
  let selector ← selectorFrom map "delete"
  pure ⟨table, selector⟩

/-- Only writes compose into a transaction. -/
def opFrom (opDoc : Doc) : ProtoResult Request := do
  let map ← asMap opDoc "transaction" "ops"
  let op ← reqStr map "transaction op" "op"
  match op with
  | "insert" => do
    let ins ← insertFrom map
    pure (.insert ins)
  | "update" => do
    let upd ← updateFrom map
    pure (.update upd)
  | "delete" => do
    let del ← deleteFrom map
    pure (.delete del)
  | other => .error (.unknownNode "transaction op" other)

def transactionFrom (map : Entries) : ProtoResult Request := do
  only map "transaction" ["op", "v", "ops"]
  let opsDoc ← req map "transaction" "ops"
  let items ← asArray opsDoc "transaction" "ops"
  let ops ← items.mapM opFrom
  pure (.transaction ops)

def explainFrom (map : Entries) : ProtoResult Request := do
  only map "explain" ["op", "v", "query"]
  let queryDoc ← req map "explain" "query"
  let query ← asMap queryDoc "explain" "query"
  let op ← reqStr query "explain query" "op"
  match op with
  | "select" => do
    let select ← selectFrom query
    pure (.explain select)
  | other => .error (.unknownNode "explain query" other)

/-- The version a request names, when it names one, has to be this build's. -/
def checkVersion (map : Entries) : ProtoResult Unit :=
  match find map "v" with
  | none => .ok ()
  | some (.int found) =>
    if found = protocolVersion then .ok () else .error (.unsupportedVersion found)
  | some other => .error (wrong "request" "v" "int" other)

/-- Map a decoded document onto a request. -/
def requestFromDoc (doc : Doc) : ProtoResult Request := do
  let map ← asMap doc "request" "request"
  checkVersion map
  let op ← reqStr map "request" "op"
  match op with
  | "select" => do
    let select ← selectFrom map
    pure (.select select)
  | "insert" => do
    let ins ← insertFrom map
    pure (.insert ins)
  | "update" => do
    let upd ← updateFrom map
    pure (.update upd)
  | "delete" => do
    let del ← deleteFrom map
    pure (.delete del)
  | "transaction" => transactionFrom map
  | "explain" => explainFrom map
  | other => .error (.unknownNode "request" other)

/-- Decode one request under `limits`. -/
def decodeRequest (bytes : Bytes) (limits : DecodeLimits) : ProtoResult Request := do
  let doc ← decodeDoc bytes limits
  requestFromDoc doc

/-! ## Encoding -/

/-- A field that is written when it is there. -/
def field (name : String) : Option Doc → Entries
  | none => []
  | some doc => [(name, doc)]

/-- Wire ints are `i64`; counts saturate. -/
def intFromU64 (n : Nat) : Int64 := if n < 2 ^ 63 then Int64.ofNat n else Int64.maxValue

/-- The wire form of a value. A `json` value is nested structurally; bytes that do not decode
degrade to a bin. -/
def rowValueToDoc : Value → Doc
  | .null => .null
  | .bool b => .bool b
  | .i64 n => .int n
  | .f64 f => .float f
  | .text s => .str s
  | .blob b => .bin b
  | .json bytes =>
    match decodeDoc bytes .default with
    | .ok doc => doc
    | .error _ => .bin bytes
  | .uuid u => .str (uuidToString u)
  | .timestamp t => .int t

def single (name : String) (body : Doc) : Doc := .map [(name, body)]

mutual

def exprToDoc : Expr → Doc
  | .column (some table) column => single "col" (.array [.str table, .str column])
  | .column none column => single "col" (.str column)
  | .literal value => rowValueToDoc value
  | .cmp op lhs rhs => single op.name (.array [exprToDoc lhs, exprToDoc rhs])
  | .and items => single "and" (.array (exprsToDocs items))
  | .or items => single "or" (.array (exprsToDocs items))
  | .not inner => single "not" (exprToDoc inner)
  | .arith op lhs rhs => single op.name (.array [exprToDoc lhs, exprToDoc rhs])
  | .isNull inner => single "is_null" (exprToDoc inner)
  | .isNotNull inner => single "is_not_null" (exprToDoc inner)
  | .between expr lo hi =>
    single "between" (.array [exprToDoc expr, exprToDoc lo, exprToDoc hi])
  | .inList expr list => single "in" (.array [exprToDoc expr, .array (exprsToDocs list)])
  | .like expr pattern caseInsensitive =>
    single (if caseInsensitive then "ilike" else "like") (.array [exprToDoc expr, .str pattern])
  | .coalesce items => single "coalesce" (.array (exprsToDocs items))
  | .nullIf lhs rhs => single "nullif" (.array [exprToDoc lhs, exprToDoc rhs])
  | .cast expr to_ => single "cast" (.array [exprToDoc expr, .str to_.asStr])
  | .agg func arg => single func.name (exprToDoc arg)

def exprsToDocs : List Expr → List Doc
  | [] => []
  | e :: es => exprToDoc e :: exprsToDocs es

end

def tableRefToDoc (table : TableRef) : Doc :=
  .map ([("table", .str table.table)] ++ field "as" (table.alias_.map .str))

def joinSpecToDoc (join : JoinSpec) : Doc :=
  .map ([("type", .str join.kind.name), ("table", tableRefToDoc join.table)]
    ++ field "on" (join.on.map exprToDoc))

def sortKeyToDoc (key : SortKey) : Doc :=
  .map [("expr", exprToDoc key.expr), ("dir", .str key.dir.name)]

def projectionToDoc : Projection → Doc
  | .expr expr => exprToDoc expr
  | .aliased name expr => .map [("as", .array [.str name, exprToDoc expr])]

def namedExprsToDoc (named : List (String × Expr)) : Doc :=
  .map (named.map fun e => (e.1, exprToDoc e.2))

def countToDoc (n : Nat) : Doc := .int (intFromU64 n)

def stageToDoc : Stage → Doc
  | .scan table => single "scan" (tableRefToDoc table)
  | .match expr => single "match" (exprToDoc expr)
  | .join join => single "join" (joinSpecToDoc join)
  | .group by_ aggs =>
    single "group" (.map [("by", .array (by_.map exprToDoc)), ("agg", namedExprsToDoc aggs)])
  | .sort keys => single "sort" (.array (keys.map sortKeyToDoc))
  | .project items => single "project" (.array (items.map projectionToDoc))
  | .distinct on => single "distinct" (.bool on)
  | .limit limit offset => .map (field "limit" (limit.map countToDoc)
      ++ [("offset", countToDoc offset)])
  | .cursor token => single "cursor" (.bin token)

/-- A list field, written when it is not empty. -/
def listField {α : Type} (name : String) (toDoc : α → Doc) (items : List α) : Entries :=
  field name (if items.isEmpty then none else some (.array (items.map toDoc)))

def selectEntries : Select → Entries
  | .pipeline stages => [("pipeline", .array (stages.map stageToDoc))]
  | .clause clause =>
    field "from" (clause.from.map tableRefToDoc)
    ++ listField "joins" joinSpecToDoc clause.joins
    ++ field "where" (clause.where_.map exprToDoc)
    ++ listField "group_by" exprToDoc clause.groupBy
    ++ field "having" (clause.having.map exprToDoc)
    ++ listField "order_by" sortKeyToDoc clause.orderBy
    ++ field "select" (clause.select.map fun items => .array (items.map projectionToDoc))
    ++ field "distinct" (if clause.distinct then some (.bool true) else none)
    ++ field "limit" (clause.limit.map countToDoc)
    ++ field "offset" (clause.offset.map countToDoc)
    ++ field "cursor" (clause.cursor.map .bin)

def rowToDoc (row : List (String × Value)) : Doc :=
  .map (row.map fun e => (e.1, rowValueToDoc e.2))

def insertEntries (insert : Insert) : Entries :=
  [("table", .str insert.table), ("rows", .array (insert.rows.map rowToDoc))]

def selectorEntries : Option Selector → Entries
  | some (.where_ pred) => [("where", exprToDoc pred)]
  | some .all => [("all", .bool true)]
  | none => []

def updateEntries (update : Update) : Entries :=
  [("table", .str update.table)] ++ selectorEntries update.selector
    ++ [("set", namedExprsToDoc update.set)]
    ++ field "unconditional" (if update.unconditional then some (.bool true) else none)

def deleteEntries (delete : Delete) : Entries :=
  [("table", .str delete.table)] ++ selectorEntries delete.selector

/-- Inner operations carry no `v`. -/
def stripVersion : Doc → Doc
  | .map entries => .map (entries.filter fun e => e.1 ≠ "v")
  | other => other

def envelope (op : String) (entries : Entries) : Doc :=
  .map ([("v", .int protocolVersion), ("op", .str op)] ++ entries)

mutual

def requestToDoc : Request → Doc
  | .select select => envelope "select" (selectEntries select)
  | .insert ins => envelope "insert" (insertEntries ins)
  | .update upd => envelope "update" (updateEntries upd)
  | .delete del => envelope "delete" (deleteEntries del)
  | .transaction ops => envelope "transaction" [("ops", .array (opsToDocs ops))]
  | .explain select =>
    envelope "explain" [("query", .map ([("op", .str "select")] ++ selectEntries select))]

def opsToDocs : List Request → List Doc
  | [] => []
  | op :: ops => stripVersion (requestToDoc op) :: opsToDocs ops

end

/-- Encode a request in its canonical form. -/
def encodeRequest (request : Request) : Bytes := encodeDoc (requestToDoc request)

end Edb.Proto
