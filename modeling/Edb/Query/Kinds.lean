import Edb.Query.Sound

/-!
# The kinds of what is evaluated

The kinds the executor can give a column are computed from the plan alone, by the executor's own
rules: a reference reads the first column it names, `coalesce` passes its first value on as it is,
a `sum` without a float is an integer, and the columns an aggregate without group keys passes
through may be null. An expression evaluates to a value of its kinds (`eval_kinds`).
-/

namespace Edb.Query

open Edb.Types Edb.Proto Edb.Lib
open Edb.Catalog hiding CmpOp

/-- The kinds a value may have, and whether it may be null. -/
structure Kinds where
  null : Bool
  kinds : List TypeKind
  deriving DecidableEq, Repr

/-- A value of the kinds. -/
def Kinds.Has (t : Kinds) (v : Value) : Prop :=
  match v.kind with
  | none => t.null = true
  | some k => k ∈ t.kinds

def Kinds.boolean (null : Bool) : Kinds := ⟨null, [.bool]⟩

def Kinds.orNull (t : Kinds) : Kinds := { t with null := true }

/-- The kinds of a static type. -/
def FieldType.kinds (ty : FieldType) : Kinds := ⟨ty.nullable, ty.kind.toList⟩

/-- The columns visible at a plan node with their kinds. -/
abbrev Cols := List (BoundColumn × Kinds)

theorem Kinds.has_null {t : Kinds} : t.Has .null ↔ t.null = true := Iff.rfl

theorem Kinds.Has.orNull {t : Kinds} {v : Value} (h : t.Has v) : t.orNull.Has v := by
  unfold Kinds.Has at *
  cases hk : v.kind with
  | none => rfl
  | some k =>
    rw [hk] at h
    exact h

theorem Kinds.Has.truth {null : Bool} {v : Value}
    (h : (∃ b, v = .bool b) ∨ (v = .null ∧ null = true)) : (Kinds.boolean null).Has v := by
  rcases h with ⟨b, rfl⟩ | ⟨rfl, hnull⟩
  · exact List.mem_singleton_self _
  · exact hnull

/-! ## Expressions -/

/-- The kinds of an arithmetic result. -/
def arithKinds (l r : List TypeKind) : List TypeKind :=
  (if .i64 ∈ l ∧ .i64 ∈ r then [.i64] else []) ++
    (if (.f64 ∈ l ∧ (.i64 ∈ r ∨ .f64 ∈ r)) ∨ (.i64 ∈ l ∧ .f64 ∈ r) then [.f64] else [])

/-- Whether an item of a connective may be something else than a truth value. -/
def Kinds.mayBlur (t : Kinds) : Bool := t.null || t.kinds.any (· ≠ .bool)

section

variable (cols : Cols)

mutual

/-- The kinds of an expression. -/
def kindsExpr : Expr → Kinds
  | .column table column =>
    ((cols.find? (fun c => c.1.named table column)).map Prod.snd).getD ⟨false, []⟩
  | .literal value => ⟨value.isNull, value.kind.toList⟩
  | .cmp _ lhs rhs => .boolean ((kindsExpr lhs).null || (kindsExpr rhs).null)
  | .and items => .boolean (anyBlurs items)
  | .or items => .boolean (anyBlurs items)
  | .not inner => .boolean (kindsExpr inner).null
  | .arith _ lhs rhs => ⟨(kindsExpr lhs).null || (kindsExpr rhs).null,
      arithKinds (kindsExpr lhs).kinds (kindsExpr rhs).kinds⟩
  | .isNull _ => .boolean false
  | .isNotNull _ => .boolean false
  | .between expr lo hi =>
    .boolean ((kindsExpr expr).null || (kindsExpr lo).null || (kindsExpr hi).null)
  | .inList expr list => .boolean ((kindsExpr expr).null || anyNull list)
  | .like expr _ _ => .boolean (kindsExpr expr).null
  | .coalesce items => kindsCoalesce items
  | .nullIf lhs _ => (kindsExpr lhs).orNull
  | .cast expr to_ => ⟨(kindsExpr expr).null, [to_]⟩
  | .agg _ _ => ⟨false, []⟩

def anyBlurs : List Expr → Bool
  | [] => false
  | item :: items => (kindsExpr item).mayBlur || anyBlurs items

def anyNull : List Expr → Bool
  | [] => false
  | item :: items => (kindsExpr item).null || anyNull items

/-- The kinds of a `coalesce`: those of the items up to the first that is never null. -/
def kindsCoalesce : List Expr → Kinds
  | [] => ⟨true, []⟩
  | item :: items =>
    if (kindsExpr item).null then
      ⟨(kindsCoalesce items).null, (kindsExpr item).kinds ++ (kindsCoalesce items).kinds⟩
    else kindsExpr item

end

/-- The kinds of an aggregate output. -/
def kindsAgg : Expr → Kinds
  | .agg func arg =>
    match func with
    | .count => ⟨false, [.i64]⟩
    | .sum => ⟨true, (if .f64 ∈ (kindsExpr cols arg).kinds then [.f64] else []) ++
        (if (kindsExpr cols arg).kinds.any (· ≠ .f64) then [.i64] else [])⟩
    | .min => (kindsExpr cols arg).orNull
    | .max => (kindsExpr cols arg).orNull
    | .avg => ⟨true, [.f64]⟩
  | _ => ⟨true, []⟩

end

/-- The columns of a table with the kinds of their values. -/
def kindsTable (def_ : TableDef) (qualifier : String) : Cols :=
  (RowType.ofTable def_ qualifier).slots.map (fun s => (s.column, s.ty.kinds))

/-- The columns with nulls among their values. -/
def Cols.orNull (cols : Cols) : Cols := cols.map (fun c => (c.1, c.2.orNull))

/-- The columns of the table the schema has under a name. -/
def kindsScan (schema : SchemaView) (table : String) (alias_ : Option String) : Cols :=
  match lookup schema table with
  | .ok def_ => kindsTable def_ (alias_.getD table)
  | .error _ => []

/-- The columns a plan yields, with their kinds. -/
def kindsPlan (schema : SchemaView) : Plan → Cols
  | .scan table alias_ => kindsScan schema table alias_
  | .indexScan table alias_ _ _ => kindsScan schema table alias_
  | .pkLookup table alias_ _ => kindsScan schema table alias_
  | .filter input _ => kindsPlan schema input
  | .join kind left right _ => kindsPlan schema left ++
      (if kind = .left then Cols.orNull (kindsPlan schema right) else kindsPlan schema right)
  | .aggregate input by_ aggs =>
    -- without group keys there is a group of no rows, whose columns are null
    (if by_ = [] then Cols.orNull (kindsPlan schema input) else kindsPlan schema input) ++
      aggs.map (fun a => (⟨none, a.1⟩, kindsAgg (kindsPlan schema input) a.2))
  | .project input items => items.zipIdx.map (fun (item, i) =>
      (⟨none, outputNameOf item i⟩, kindsExpr (kindsPlan schema input) (itemExpr item)))
  | .distinct input => kindsPlan schema input
  | .sort input _ => kindsPlan schema input
  | .limit input _ _ => kindsPlan schema input
  | .cursor input _ => kindsPlan schema input

/-! ## Operators on values of known kinds -/

section

variable {l r t : Kinds} {a b v : Value}

theorem Kinds.Has.null_of (h : t.Has v) (hv : v.isNull = true) : t.null = true := by
  cases v <;> first | exact h | cases hv

/-- More kinds admit more values. -/
theorem Kinds.Has.of_le (h : l.Has v) (hnull : l.null = true → r.null = true)
    (hkinds : ∀ k ∈ l.kinds, k ∈ r.kinds) : r.Has v := by
  unfold Kinds.Has at *
  cases hk : v.kind with
  | none =>
    rw [hk] at h
    exact hnull h
  | some k =>
    rw [hk] at h
    exact hkinds k h

/-- A value that is not null needs its kind only. -/
theorem Kinds.Has.of_kinds (h : l.Has v) (hv : ¬ v.isNull = true)
    (hkinds : ∀ k ∈ l.kinds, k ∈ r.kinds) : r.Has v := by
  cases v <;> first | exact absurd rfl hv | exact hkinds _ h

theorem Kinds.mayBlur_boolean (null : Bool) : (Kinds.boolean null).mayBlur = null := by
  cases null <;> rfl

/-- A comparison is a boolean, NULL where an operand may be. -/
theorem evalCmp_kinds (ha : l.Has a) (hb : r.Has b) (op : CmpOp) :
    (Kinds.boolean (l.null || r.null)).Has (evalCmp op a b) := by
  apply Kinds.Has.truth
  rw [evalCmp]
  split
  · next hnull =>
    refine .inr ⟨rfl, ?_⟩
    rcases Bool.or_eq_true_iff.1 hnull with h | h
    · rw [ha.null_of h, Bool.true_or]
    · rw [hb.null_of h, Bool.or_true]
  · exact .inl ⟨_, rfl⟩

theorem Kinds.Has.bool_or_null {null : Bool} (h : (Kinds.boolean null).Has v) :
    (∃ b, v = .bool b) ∨ (v = .null ∧ null = true) := by
  cases v with
  | bool b => exact .inl ⟨b, rfl⟩
  | null => exact .inr ⟨rfl, h⟩
  | _ => exact absurd (List.mem_singleton.1 h) (by decide)

/-- An item that may be neither true nor false makes the connective null. -/
theorem Kinds.Has.blurs (h : t.Has v) (hv : ∀ b, v ≠ .bool b) : t.mayBlur = true := by
  rw [mayBlur, Bool.or_eq_true_iff]
  cases hk : v.kind with
  | none =>
    rw [Has, hk] at h
    exact .inl h
  | some k =>
    rw [Has, hk] at h
    refine .inr (List.any_eq_true.2 ⟨k, h, ?_⟩)
    rw [decide_eq_true_iff]
    rintro rfl
    cases v <;> first | exact hv _ rfl | cases hk

theorem connective_kinds {null : Bool} {c : Value} (ha : (Kinds.boolean null).Has a) (hv : t.Has v)
    (hc : (∃ b, c = .bool b) ∨ (c = .null ∧ ((∀ b, a ≠ .bool b) ∨ ∀ b, v ≠ .bool b))) :
    (Kinds.boolean (null || t.mayBlur)).Has c := by
  apply Kinds.Has.truth
  refine hc.imp_right (fun h => ⟨h.1, ?_⟩)
  rcases h.2 with ha' | hv'
  · rcases ha.bool_or_null with ⟨b, rfl⟩ | ⟨_, hnull⟩
    · exact absurd rfl (ha' b)
    · rw [hnull, Bool.true_or]
  · rw [hv.blurs hv', Bool.or_true]

/-- A conjunction is a boolean, NULL where an item may not be a boolean. -/
theorem and3_kinds {null : Bool} (ha : (Kinds.boolean null).Has a) (hv : t.Has v) :
    (Kinds.boolean (null || t.mayBlur)).Has (and3 a v) := by
  apply connective_kinds ha hv
  unfold and3
  split
  · exact .inl ⟨_, rfl⟩
  · exact .inl ⟨_, rfl⟩
  · exact .inl ⟨_, rfl⟩
  · next hf hf' htt =>
    refine .inr ⟨rfl, ?_⟩
    by_contra hboth
    push Not at hboth
    obtain ⟨⟨x, rfl⟩, ⟨y, rfl⟩⟩ := hboth
    cases x <;> cases y <;> first | exact hf rfl | exact hf' rfl | exact htt rfl rfl

/-- A disjunction is a boolean, NULL where an item may not be a boolean. -/
theorem or3_kinds {null : Bool} (ha : (Kinds.boolean null).Has a) (hv : t.Has v) :
    (Kinds.boolean (null || t.mayBlur)).Has (or3 a v) := by
  apply connective_kinds ha hv
  unfold or3
  split
  · exact .inl ⟨_, rfl⟩
  · exact .inl ⟨_, rfl⟩
  · exact .inl ⟨_, rfl⟩
  · next ht ht' hff =>
    refine .inr ⟨rfl, ?_⟩
    by_contra hboth
    push Not at hboth
    obtain ⟨⟨x, rfl⟩, ⟨y, rfl⟩⟩ := hboth
    cases x <;> cases y <;> first | exact ht rfl | exact ht' rfl | exact hff rfl rfl

theorem not3_kinds (hv : t.Has v) (h : not3 v = .ok b) : (Kinds.boolean t.null).Has b := by
  apply Kinds.Has.truth
  unfold not3 at h
  split at h
  · cases h
    exact .inr ⟨rfl, hv⟩
  · cases h
    exact .inl ⟨_, rfl⟩
  · cases h

theorem evalLike_kinds {fx : Intrinsics} {pattern : String} {ci : Bool} (hv : t.Has v)
    (h : evalLike fx pattern ci v = .ok b) : (Kinds.boolean t.null).Has b := by
  apply Kinds.Has.truth
  unfold evalLike at h
  split at h
  · cases h
    exact .inr ⟨rfl, hv⟩
  · cases h
    exact .inl ⟨_, rfl⟩
  · cases h

theorem intArith_kind {op : ArithOp} {x y : Int64} (h : intArith op x y = .ok v) :
    v.kind = some .i64 := by
  obtain ⟨out, _, h⟩ := Result.bind_eq_ok.1 h
  cases out with
  | none => cases h
  | some n =>
    cases h
    rfl

/-- Arithmetic yields a number of the kinds its operands may give, NULL where one may be. -/
theorem evalArith_kinds {fx : Intrinsics} {op : ArithOp} (ha : l.Has a) (hb : r.Has b)
    (h : evalArith fx op a b = .ok v) :
    (Kinds.mk (l.null || r.null) (arithKinds l.kinds r.kinds)).Has v := by
  unfold evalArith at h
  split at h
  · cases h
    show (l.null || r.null) = true
    rw [show l.null = true from ha, Bool.true_or]
  · cases h
    show (l.null || r.null) = true
    rw [show r.null = true from hb, Bool.or_true]
  · have hl : TypeKind.i64 ∈ l.kinds := ha
    have hr : TypeKind.i64 ∈ r.kinds := hb
    rw [Kinds.Has, intArith_kind h]
    simp [arithKinds, hl, hr]
  · cases h
    have hl : TypeKind.f64 ∈ l.kinds := ha
    have hr : TypeKind.f64 ∈ r.kinds := hb
    show TypeKind.f64 ∈ arithKinds l.kinds r.kinds
    simp [arithKinds, hl, hr]
  · cases h
    have hl : TypeKind.i64 ∈ l.kinds := ha
    have hr : TypeKind.f64 ∈ r.kinds := hb
    show TypeKind.f64 ∈ arithKinds l.kinds r.kinds
    simp [arithKinds, hl, hr]
  · cases h
    have hl : TypeKind.f64 ∈ l.kinds := ha
    have hr : TypeKind.i64 ∈ r.kinds := hb
    show TypeKind.f64 ∈ arithKinds l.kinds r.kinds
    simp [arithKinds, hl, hr]
  · cases h

theorem nullIf_kinds (ha : l.Has a) (b : Value) : l.orNull.Has (nullIf a b) := by
  rw [nullIf]
  split
  · rfl
  · exact ha.orNull

/-- A conversion yields the kind it converts to. -/
theorem convert_kind {fx : Intrinsics} {to_ : TypeKind} (h : convert fx to_ v = .ok b) :
    b.kind = some to_ := by
  -- a conversion out of range fails, so one that returns has its kind
  have hrange : ∀ {o : Option Value}, (∀ w, o = some w → w.kind = some to_) →
      orRange to_ o = .ok b → b.kind = some to_ := by
    intro o ho h
    cases o with
    | none => cases h
    | some w =>
      cases h
      exact ho b rfl
  unfold convert at h
  split at h
  · cases h
    rfl
  · refine hrange (fun w hw => ?_) h
    obtain ⟨n, _, rfl⟩ := Option.map_eq_some_iff.1 hw
    rfl
  · cases h
    rfl
  · cases h
    rfl
  · cases h
    rfl
  · refine hrange (fun w hw => ?_) h
    obtain ⟨n, _, rfl⟩ := Option.map_eq_some_iff.1 hw
    rfl
  · refine hrange (fun w hw => ?_) h
    obtain ⟨n, _, rfl⟩ := Option.map_eq_some_iff.1 hw
    rfl
  · split at h
    · cases h
      rfl
    · split at h
      · cases h
        rfl
      · cases h
  · obtain ⟨s, _, h⟩ := Result.bind_eq_ok.1 h
    cases h
    rfl
  · cases h

/-- A cast yields the kind it casts to, NULL where its operand may be. -/
theorem evalCast_kinds {fx : Intrinsics} {to_ : TypeKind} (hv : t.Has v)
    (h : evalCast fx v to_ = .ok b) : (Kinds.mk t.null [to_]).Has b := by
  have hto : ∀ {w : Value}, w.kind = some to_ → (Kinds.mk t.null [to_]).Has w := by
    intro w hw
    rw [Kinds.Has, hw]
    exact List.mem_singleton_self to_
  rw [evalCast] at h
  split at h
  · next hnull =>
    cases h
    exact hv.null_of hnull
  · split at h
    · next hk =>
      cases h
      exact hto hk
    · exact hto (convert_kind h)

end

/-! ## Evaluation -/

/-- A value of its kinds in every column. -/
abbrev RowFits (cols : Cols) (row : Row) : Prop := List.Forall₂ (fun c v => c.2.Has v) cols row

/-- The columns as the executor sees them. -/
def Cols.shape (cols : Cols) : Shape := ⟨cols.map Prod.fst⟩

/-- The evaluator reads the value of the first column a reference names. -/
theorem find?_fits {cols : Cols} {row : Row} (hrow : RowFits cols row) {table : Option String}
    {column : String} {idx : Nat} (hidx : cols.shape.resolve table column = some idx) :
    ∃ c : BoundColumn × Kinds, cols.find? (fun c => c.1.named table column) = some c ∧
      c.2.Has (row.getD idx .null) := by
  rw [Shape.resolve, Cols.shape] at hidx
  induction hrow generalizing idx with
  | nil => cases hidx
  | @cons c v cols row hv _ ih =>
    rw [List.map_cons, List.findIdx?_cons] at hidx
    cases hn : c.1.named table column with
    | true =>
      rw [hn] at hidx
      cases hidx
      refine ⟨c, ?_, hv⟩
      rw [List.find?_cons, hn]
    | false =>
      rw [hn] at hidx
      obtain ⟨i, hi, rfl⟩ := Option.map_eq_some_iff.1 hidx
      obtain ⟨c', hfind, hkind⟩ := ih hi
      refine ⟨c', ?_, hkind⟩
      rw [List.find?_cons, hn]
      exact hfind

section

variable (fx : Intrinsics) {cols : Cols} {row : Row}

mutual

/-- What an expression evaluates to is of its kinds. -/
theorem eval_kinds (hrow : RowFits cols row) :
    ∀ (e : Expr) {v : Value}, eval fx row cols.shape e = .ok v → (kindsExpr cols e).Has v
  | .column table column, v, h => by
    rw [eval] at h
    split at h
    · cases h
    · next idx hidx =>
      cases h
      obtain ⟨c, hfind, hv⟩ := find?_fits hrow hidx
      rw [kindsExpr, hfind]
      exact hv
  | .literal value, v, h => by
    rw [eval] at h
    cases h
    rw [kindsExpr]
    cases value <;> first | rfl | exact List.mem_singleton_self _
  | .cmp op lhs rhs, v, h => by
    rw [eval] at h
    obtain ⟨a, ha, h⟩ := Result.bind_eq_ok.1 h
    obtain ⟨b, hb, h⟩ := Result.bind_eq_ok.1 h
    cases h
    rw [kindsExpr]
    exact evalCmp_kinds (eval_kinds hrow lhs ha) (eval_kinds hrow rhs hb) op
  | .and items, v, h => by
    rw [eval] at h
    rw [kindsExpr]
    -- the unit of the connective is a truth value
    have hall := (bools_kinds hrow items).1 false (.bool true) (.truth (.inl ⟨_, rfl⟩)) h
    rwa [Bool.false_or] at hall
  | .or items, v, h => by
    rw [eval] at h
    rw [kindsExpr]
    have hall := (bools_kinds hrow items).2 false (.bool false) (.truth (.inl ⟨_, rfl⟩)) h
    rwa [Bool.false_or] at hall
  | .not inner, v, h => by
    rw [eval] at h
    obtain ⟨a, ha, h⟩ := Result.bind_eq_ok.1 h
    rw [kindsExpr]
    exact not3_kinds (eval_kinds hrow inner ha) h
  | .arith op lhs rhs, v, h => by
    rw [eval] at h
    obtain ⟨a, ha, h⟩ := Result.bind_eq_ok.1 h
    obtain ⟨b, hb, h⟩ := Result.bind_eq_ok.1 h
    rw [kindsExpr]
    exact evalArith_kinds (eval_kinds hrow lhs ha) (eval_kinds hrow rhs hb) h
  | .isNull inner, v, h => by
    rw [eval] at h
    obtain ⟨a, _, h⟩ := Result.bind_eq_ok.1 h
    cases h
    rw [kindsExpr]
    exact .truth (.inl ⟨_, rfl⟩)
  | .isNotNull inner, v, h => by
    rw [eval] at h
    obtain ⟨a, _, h⟩ := Result.bind_eq_ok.1 h
    cases h
    rw [kindsExpr]
    exact .truth (.inl ⟨_, rfl⟩)
  | .between expr lo hi, v, h => by
    rw [eval] at h
    obtain ⟨a, ha, h⟩ := Result.bind_eq_ok.1 h
    obtain ⟨b, hb, h⟩ := Result.bind_eq_ok.1 h
    obtain ⟨c, hc, h⟩ := Result.bind_eq_ok.1 h
    cases h
    rw [kindsExpr]
    -- between is two comparisons, of which either may be unknown
    have hlo := evalCmp_kinds (eval_kinds hrow expr ha) (eval_kinds hrow lo hb) .gte
    have hhi := evalCmp_kinds (eval_kinds hrow expr ha) (eval_kinds hrow hi hc) .lte
    have hboth := and3_kinds hlo hhi
    rw [Kinds.mayBlur_boolean] at hboth
    revert hboth
    cases (kindsExpr cols expr).null <;> cases (kindsExpr cols lo).null <;>
      cases (kindsExpr cols hi).null <;> exact id
  | .inList expr list, v, h => by
    rw [eval] at h
    obtain ⟨a, ha, h⟩ := Result.bind_eq_ok.1 h
    have hexpr := eval_kinds hrow expr ha
    rw [kindsExpr]
    split at h
    -- nothing is known of a NULL in a list, and nothing else is looked at
    · next hnull =>
      cases h
      rw [hexpr.null_of hnull, Bool.true_or]
      exact .truth (.inr ⟨rfl, rfl⟩)
    · next hnull =>
      -- a list with a NULL in it leaves a miss unknown
      have hin := in_kinds hrow (Bool.eq_false_of_not_eq_true hnull) list false h
      refine .truth (hin.bool_or_null.imp_right (fun hv => ⟨hv.1, ?_⟩))
      have hany := hv.2
      rw [Bool.false_or] at hany
      rw [hany, Bool.or_true]
  | .like expr pattern ci, v, h => by
    rw [eval] at h
    obtain ⟨a, ha, h⟩ := Result.bind_eq_ok.1 h
    rw [kindsExpr]
    exact evalLike_kinds (eval_kinds hrow expr ha) h
  | .coalesce items, v, h => by
    rw [eval] at h
    rw [kindsExpr]
    exact coalesce_kinds hrow items h
  | .nullIf lhs rhs, v, h => by
    rw [eval] at h
    obtain ⟨a, ha, h⟩ := Result.bind_eq_ok.1 h
    obtain ⟨b, _, h⟩ := Result.bind_eq_ok.1 h
    cases h
    rw [kindsExpr]
    exact nullIf_kinds (eval_kinds hrow lhs ha) b
  | .cast expr to_, v, h => by
    rw [eval] at h
    obtain ⟨a, ha, h⟩ := Result.bind_eq_ok.1 h
    rw [kindsExpr]
    exact evalCast_kinds (eval_kinds hrow expr ha) h
  | .agg _ _, v, h => by
    rw [eval] at h
    cases h

/-- The items of a connective, under either connective. -/
theorem bools_kinds (hrow : RowFits cols row) : ∀ (items : List Expr) {v : Value},
    (∀ null acc, (Kinds.boolean null).Has acc → evalAnd fx row cols.shape acc items = .ok v →
      (Kinds.boolean (null || anyBlurs cols items)).Has v) ∧
    (∀ null acc, (Kinds.boolean null).Has acc → evalOr fx row cols.shape acc items = .ok v →
      (Kinds.boolean (null || anyBlurs cols items)).Has v)
  | [], v => by
    constructor
    · intro null acc hacc h
      rw [evalAnd] at h
      cases h
      rw [anyBlurs, Bool.or_false]
      exact hacc
    · intro null acc hacc h
      rw [evalOr] at h
      cases h
      rw [anyBlurs, Bool.or_false]
      exact hacc
  | item :: items, v => by
    constructor
    · intro null acc hacc h
      rw [evalAnd] at h
      obtain ⟨w, hw, h⟩ := Result.bind_eq_ok.1 h
      have hnext := and3_kinds hacc (eval_kinds hrow item hw)
      rw [anyBlurs, ← Bool.or_assoc]
      exact (bools_kinds hrow items).1 _ _ hnext h
    · intro null acc hacc h
      rw [evalOr] at h
      obtain ⟨w, hw, h⟩ := Result.bind_eq_ok.1 h
      have hnext := or3_kinds hacc (eval_kinds hrow item hw)
      rw [anyBlurs, ← Bool.or_assoc]
      exact (bools_kinds hrow items).2 _ _ hnext h

/-- Membership of a value that is not null. -/
theorem in_kinds (hrow : RowFits cols row) {w : Value} (hw : w.isNull = false) :
    ∀ (items : List Expr) (sawNull : Bool) {v : Value},
      evalIn fx row cols.shape w sawNull items = .ok v →
      (Kinds.boolean (sawNull || anyNull cols items)).Has v
  | [], sawNull, v, h => by
    rw [evalIn] at h
    cases h
    rw [anyNull, Bool.or_false]
    cases sawNull with
    | true => exact .truth (.inr ⟨rfl, rfl⟩)
    | false => exact .truth (.inl ⟨_, rfl⟩)
  | item :: items, sawNull, v, h => by
    rw [evalIn] at h
    obtain ⟨x, hx, h⟩ := Result.bind_eq_ok.1 h
    have hitem := eval_kinds hrow item hx
    rw [anyNull]
    split at h
    · cases h
      exact .truth (.inl ⟨_, rfl⟩)
    · next hcmp =>
      -- the comparison is null for the item's sake
      have hnull : x.isNull = true := by
        rw [evalCmp, hw, Bool.false_or] at hcmp
        split at hcmp
        · assumption
        · cases hcmp
      have hrest := in_kinds hrow hw items true h
      rw [hitem.null_of hnull, Bool.true_or, Bool.or_true]
      rwa [Bool.true_or] at hrest
    · have hrest := in_kinds hrow hw items sawNull h
      refine .truth (hrest.bool_or_null.imp_right (fun hv => ⟨hv.1, ?_⟩))
      rcases Bool.or_eq_true_iff.1 hv.2 with hsaw | hany
      · rw [hsaw, Bool.true_or]
      · rw [hany, Bool.or_true, Bool.or_true]

/-- The branches of a `coalesce`. -/
theorem coalesce_kinds (hrow : RowFits cols row) : ∀ (items : List Expr) {v : Value},
    evalCoalesce fx row cols.shape items = .ok v → (kindsCoalesce cols items).Has v
  | [], v, h => by
    rw [evalCoalesce] at h
    cases h
    rw [kindsCoalesce]
    rfl
  | item :: items, v, h => by
    rw [evalCoalesce] at h
    obtain ⟨x, hx, h⟩ := Result.bind_eq_ok.1 h
    have hitem := eval_kinds hrow item hx
    rw [kindsCoalesce]
    split at h
    · next hnull =>
      rw [if_pos (hitem.null_of hnull)]
      have hrest := coalesce_kinds hrow items h
      exact hrest.of_le id (fun k hk => List.mem_append_right _ hk)
    · next hnull =>
      cases h
      split
      · exact hitem.of_kinds hnull (fun k hk => List.mem_append_left _ hk)
      · exact hitem

end

end

end Edb.Query
