import Mathlib.Algebra.GroupWithZero.Nat
import Mathlib.Algebra.Ring.Int.Defs
import Edb.Lib.Keyset
import Edb.Lib.Result
import Edb.Proto.Ast
import Edb.Types.Float

/-!
# Scalar expression evaluation

A pure function from an expression and a bound row to a value, under three-valued logic: a
null operand propagates, and only a definitely true predicate keeps a row. Comparisons use
the logical order, except that the two numeric kinds compare by value.
-/

namespace Edb.Query

open Edb.Types Edb.Proto Edb.Lib

abbrev Row := List Value

/-- How evaluation can fail. -/
inductive EvalError where
  | overflow (op : String)
  | divByZero
  | badCast (source : String) (to_ : TypeKind)
  | castRange (to_ : TypeKind)
  | unresolvedColumn (column : String)
  | typeError (op : String)
  | unexpectedAggregate
  deriving DecidableEq, Repr

/-- The operations of the standard library that are taken as given: IEEE arithmetic, the decimal
form of a float and its parser, Unicode lowercasing, of which no property here depends on the
results, and the stable sort of rows by the key tuples before them. -/
structure Intrinsics where
  addF64 : F64 → F64 → F64
  subF64 : F64 → F64 → F64
  mulF64 : F64 → F64 → F64
  divF64 : F64 → F64 → F64
  remF64 : F64 → F64 → F64
  sumF64 : List F64 → F64
  parseF64 : String → Option F64
  displayF64 : F64 → String
  toLowercase : String → String
  sortBy : Keyset.Sorter (Row × Row)

/-! ## Row binding -/

/-- One bound column: its optional qualifier and its name. -/
structure BoundColumn where
  qualifier : Option String
  name : String
  deriving DecidableEq, Repr

/-- The ordered columns of the row an expression evaluates against. -/
structure Shape where
  cols : List BoundColumn
  deriving DecidableEq, Repr

/-- Whether a reference names the column: an unqualified name matches on the name alone. -/
def BoundColumn.named (c : BoundColumn) (qualifier : Option String) (column : String) : Bool :=
  c.name == column && (qualifier.isNone || c.qualifier == qualifier)

namespace Shape

/-- Append a column. -/
def push (s : Shape) (qualifier : Option String) (name : String) : Shape :=
  ⟨s.cols ++ [⟨qualifier, name⟩]⟩

/-- Concatenate two shapes. -/
def concat (s t : Shape) : Shape := ⟨s.cols ++ t.cols⟩

/-- The position of the column a reference names. -/
def resolve (s : Shape) (qualifier : Option String) (column : String) : Option Nat :=
  s.cols.findIdx? (fun c => c.named qualifier column)

end Shape

/-! ## Operators -/

/-- Three-valued AND. -/
def and3 : Value → Value → Value
  | .bool false, _ => .bool false
  | _, .bool false => .bool false
  | .bool true, .bool true => .bool true
  | _, _ => .null

/-- Three-valued OR. -/
def or3 : Value → Value → Value
  | .bool true, _ => .bool true
  | _, .bool true => .bool true
  | .bool false, .bool false => .bool false
  | _, _ => .null

/-- The order of two floats in the value model. -/
def f64Order (x y : F64) : Ordering := (Value.f64 x).logicalCmp (.f64 y)

/-- The order of two values for comparison and sorting: the two numeric kinds compare by
value, everything else by the logical order. -/
def valueOrder : Value → Value → Ordering
  | .i64 x, .f64 y => f64Order (F64.ofInt64 x) y
  | .f64 x, .i64 y => f64Order x (F64.ofInt64 y)
  | a, b => a.logicalCmp b

/-- The truth of an operator over an order. -/
def CmpOp.holds : CmpOp → Ordering → Bool
  | .eq, ord => ord == .eq
  | .ne, ord => ord != .eq
  | .lt, ord => ord == .lt
  | .lte, ord => ord != .gt
  | .gt, ord => ord == .gt
  | .gte, ord => ord != .lt

/-- A comparison: a null operand yields null. -/
def evalCmp (op : CmpOp) (a b : Value) : Value :=
  if a.isNull || b.isNull then .null else .bool (CmpOp.holds op (valueOrder a b))

/-- The integer as an `i64`, when it fits. -/
def checked (n : Int) : Option Int64 :=
  if -2 ^ 63 ≤ n ∧ n < 2 ^ 63 then some (Int64.ofInt n) else none

/-- The result of an integer operation, none when it overflows. The remainder of `i64::MIN`
by `-1` overflows with its quotient. -/
def checkedArith (op : ArithOp) (x y : Int64) : Except EvalError (Option Int64) :=
  match op with
  | .add => .ok (checked (x.toInt + y.toInt))
  | .sub => .ok (checked (x.toInt - y.toInt))
  | .mul => .ok (checked (x.toInt * y.toInt))
  | .div => if y.toInt = 0 then .error .divByZero else .ok (checked (x.toInt.tdiv y.toInt))
  | .mod =>
    if y.toInt = 0 then .error .divByZero
    else if x.toInt = -2 ^ 63 ∧ y.toInt = -1 then .ok none
    else .ok (checked (x.toInt.tmod y.toInt))

/-- The value, or an overflow of the operator. -/
def orOverflow (op : String) : Option Int64 → Except EvalError Value
  | some v => .ok (.i64 v)
  | none => .error (.overflow op)

/-- Checked `i64` arithmetic. -/
def intArith (op : ArithOp) (x y : Int64) : Except EvalError Value := do
  let out ← checkedArith op x y
  orOverflow op.name out

/-- `f64` arithmetic follows IEEE-754. -/
def floatArith (fx : Intrinsics) : ArithOp → F64 → F64 → F64
  | .add => fx.addF64
  | .sub => fx.subF64
  | .mul => fx.mulF64
  | .div => fx.divF64
  | .mod => fx.remF64

/-- Arithmetic on two values; a null operand yields null. -/
def evalArith (fx : Intrinsics) (op : ArithOp) : Value → Value → Except EvalError Value
  | .null, _ => .ok .null
  | _, .null => .ok .null
  | .i64 x, .i64 y => intArith op x y
  | .f64 x, .f64 y => .ok (.f64 (floatArith fx op x y))
  | .i64 x, .f64 y => .ok (.f64 (floatArith fx op (F64.ofInt64 x) y))
  | .f64 x, .i64 y => .ok (.f64 (floatArith fx op x (F64.ofInt64 y)))
  | _, _ => .error (.typeError op.name)

/-! ### LIKE -/

/-- The state of the wildcard match: positions in text and pattern, the last `%` and where
to resume after it. -/
structure LikeState where
  i : Nat
  j : Nat
  star : Option Nat
  resume : Nat
  deriving DecidableEq, Repr

/-- One round of the match; none when the text cannot match. -/
def likeStep (t p : List Char) (s : LikeState) : Option LikeState :=
  if s.j < p.length ∧ (p[s.j]? = some '_' ∨ p[s.j]? = t[s.i]?) then
    some { s with i := s.i + 1, j := s.j + 1 }
  else if s.j < p.length ∧ p[s.j]? = some '%' then
    some { s with star := some s.j, resume := s.i, j := s.j + 1 }
  else
    match s.star with
    | some st => some { s with j := st + 1, resume := s.resume + 1, i := s.resume + 1 }
    | none => none

/-- Match until the text is used up. Every backtrack moves `resume` on and between two of
them `j` moves on, which bounds the rounds. -/
def likeLoop (t p : List Char) : Nat → LikeState → Bool
  | 0, _ => false
  | fuel + 1, s =>
    if s.i < t.length then
      match likeStep t p s with
      | some s' => likeLoop t p fuel s'
      | none => false
    else (p.drop s.j).all (· == '%')

/-- SQL `LIKE` over characters. -/
def likeMatch (fx : Intrinsics) (text pattern : String) (caseInsensitive : Bool) : Bool :=
  let text := if caseInsensitive then fx.toLowercase text else text
  let pattern := if caseInsensitive then fx.toLowercase pattern else pattern
  let t := text.toList
  let p := pattern.toList
  likeLoop t p ((t.length + 2) * (p.length + 2)) ⟨0, 0, none, 0⟩

/-! ### Casts -/

/-- Unicode `White_Space`. -/
def isWhitespace (c : Char) : Bool :=
  let n := c.toNat
  (0x09 ≤ n && n ≤ 0x0D) || n == 0x20 || n == 0x85 || n == 0xA0 || n == 0x1680 ||
    (0x2000 ≤ n && n ≤ 0x200A) || n == 0x2028 || n == 0x2029 || n == 0x202F || n == 0x205F ||
    n == 0x3000

/-- `str::trim`. -/
def trim (s : String) : List Char :=
  ((s.toList.dropWhile isWhitespace).reverse.dropWhile isWhitespace).reverse

/-- The number a non-empty run of decimal digits spells. -/
def parseDigits (cs : List Char) : Option Nat :=
  if cs.isEmpty || cs.any (fun c => !c.isDigit) then none
  else some (cs.foldl (fun n c => n * 10 + (c.toNat - '0'.toNat)) 0)

/-- `str::parse::<i64>`. -/
def parseI64 : List Char → Option Int64
  | '-' :: cs => (parseDigits cs).bind (fun n => checked (-(n : Int)))
  | '+' :: cs => (parseDigits cs).bind (fun n => checked n)
  | cs => (parseDigits cs).bind (fun n => checked n)

/-- The rendered kind of a value. -/
def renderKind (v : Value) : String :=
  match v.kind with
  | some k => k.asStr
  | none => "null"

/-- The text of a value; blobs, documents and null have none. -/
def renderText (fx : Intrinsics) (v : Value) : Except EvalError String :=
  match v with
  | .bool b => .ok (if b then "true" else "false")
  | .i64 n => .ok (toString n.toInt)
  | .timestamp n => .ok (toString n.toInt)
  | .f64 f => .ok (fx.displayF64 f)
  | .text s => .ok s
  | .uuid u => .ok (uuidToString u)
  | .blob _ => .error (.badCast (renderKind v) .text)
  | .json _ => .error (.badCast (renderKind v) .text)
  | .null => .error (.badCast (renderKind v) .text)

/-- The value, or a cast out of range. -/
def orRange (to_ : TypeKind) : Option Value → Except EvalError Value
  | some v => .ok v
  | none => .error (.castRange to_)

/-- A cast between two different kinds. -/
def convert (fx : Intrinsics) (to_ : TypeKind) (v : Value) : Except EvalError Value :=
  match to_, v with
  | .f64, .i64 n => .ok (.f64 (F64.ofInt64 n))
  | .i64, .f64 f => orRange to_ (f.toInt64?.map Value.i64)
  | .i64, .bool b => .ok (.i64 (if b then 1 else 0))
  | .i64, .timestamp t => .ok (.i64 t)
  | .timestamp, .i64 n => .ok (.timestamp n)
  | .i64, .text s => orRange to_ ((parseI64 (trim s)).map Value.i64)
  | .f64, .text s => orRange to_ ((fx.parseF64 (String.ofList (trim s))).map Value.f64)
  | .bool, .text s =>
    if trim s = "true".toList then .ok (.bool true)
    else if trim s = "false".toList then .ok (.bool false)
    else .error (.castRange to_)
  | .text, other => do
    let s ← renderText fx other
    pure (.text s)
  | _, _ => .error (.badCast (renderKind v) to_)

/-- Cast a value; null casts to null and a value of the target kind to itself. -/
def evalCast (fx : Intrinsics) (v : Value) (to_ : TypeKind) : Except EvalError Value :=
  if v.isNull then .ok .null
  else if v.kind = some to_ then .ok v
  else convert fx to_ v

/-! ## Evaluation -/

/-- Negation under three-valued logic. -/
def not3 : Value → Except EvalError Value
  | .null => .ok .null
  | .bool b => .ok (.bool !b)
  | _ => .error (.typeError "not")

/-- `LIKE` on a value. -/
def evalLike (fx : Intrinsics) (pattern : String) (caseInsensitive : Bool) :
    Value → Except EvalError Value
  | .null => .ok .null
  | .text s => .ok (.bool (likeMatch fx s pattern caseInsensitive))
  | _ => .error (.typeError "like")

/-- `NULLIF` on two values. -/
def nullIf (a b : Value) : Value := if evalCmp .eq a b = .bool true then .null else a

section

variable (fx : Intrinsics) (row : Row) (shape : Shape)

mutual

/-- Evaluate an expression against a row. -/
def eval : Expr → Except EvalError Value
  | .column table column =>
    match shape.resolve table column with
    | none => .error (.unresolvedColumn column)
    | some idx => .ok (row.getD idx .null)
  | .literal value => .ok value
  | .cmp op lhs rhs => do
    let a ← eval lhs
    let b ← eval rhs
    pure (evalCmp op a b)
  | .and items => evalAnd (.bool true) items
  | .or items => evalOr (.bool false) items
  | .not inner => do
    let v ← eval inner
    not3 v
  | .arith op lhs rhs => do
    let a ← eval lhs
    let b ← eval rhs
    evalArith fx op a b
  | .isNull inner => do
    let v ← eval inner
    pure (.bool v.isNull)
  | .isNotNull inner => do
    let v ← eval inner
    pure (.bool !v.isNull)
  | .between expr lo hi => do
    let v ← eval expr
    let lo ← eval lo
    let hi ← eval hi
    pure (and3 (evalCmp .gte v lo) (evalCmp .lte v hi))
  | .inList expr list => do
    let v ← eval expr
    if v.isNull then pure .null else evalIn v false list
  | .like expr pattern caseInsensitive => do
    let v ← eval expr
    evalLike fx pattern caseInsensitive v
  | .coalesce items => evalCoalesce items
  | .nullIf lhs rhs => do
    let a ← eval lhs
    let b ← eval rhs
    pure (nullIf a b)
  | .cast expr to_ => do
    let v ← eval expr
    evalCast fx v to_
  | .agg _ _ => .error .unexpectedAggregate

/-- Conjunction of all items, without a short cut. -/
def evalAnd (acc : Value) : List Expr → Except EvalError Value
  | [] => .ok acc
  | item :: items => do
    let v ← eval item
    evalAnd (and3 acc v) items

/-- Disjunction of all items, without a short cut. -/
def evalOr (acc : Value) : List Expr → Except EvalError Value
  | [] => .ok acc
  | item :: items => do
    let v ← eval item
    evalOr (or3 acc v) items

/-- Membership: the first equal item decides, a null among the others leaves it unknown. -/
def evalIn (v : Value) (sawNull : Bool) : List Expr → Except EvalError Value
  | [] => .ok (if sawNull then .null else .bool false)
  | item :: items => do
    let w ← eval item
    match evalCmp .eq v w with
    | .bool true => pure (.bool true)
    | .null => evalIn v true items
    | _ => evalIn v sawNull items

/-- The first item that is not null. -/
def evalCoalesce : List Expr → Except EvalError Value
  | [] => .ok .null
  | item :: items => do
    let v ← eval item
    if v.isNull then evalCoalesce items else pure v

end

end

/-- Whether a predicate keeps the row: only `true` does. -/
def evalPredicate (fx : Intrinsics) (expr : Expr) (row : Row) (shape : Shape) :
    Except EvalError Bool := do
  let v ← eval fx row shape expr
  pure (decide (v = .bool true))

end Edb.Query
