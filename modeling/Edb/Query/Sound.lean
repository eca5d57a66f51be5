import Edb.Query.Stream
import Edb.Query.Validate

/-!
# Progress: validated queries do not go wrong

The validator's row type and the executor's shape list the same columns, and a value is of
the kind the validator gives its expression, up to two things the two sides read
differently: a reference that matches columns of different kinds, and the type of a `sum`
over something that is not a number. Where neither occurs, evaluation fails only on the data.
-/

namespace Edb.Query

open Edb.Types Edb.Proto Edb.Lib
open Edb.Catalog hiding CmpOp

/-- Failures that depend on the data: overflow, division by zero and casts. -/
def Benign : EvalError → Prop
  | .overflow _ => True
  | .divByZero => True
  | .badCast _ _ => True
  | .castRange _ => True
  | .unresolvedColumn _ => False
  | .typeError _ => False
  | .unexpectedAggregate => False

/-- A value of a kind or null; an integer also stands where a float is expected, since
`coalesce` and `sum` keep the integers they are given. -/
def HasKind (kind : Option TypeKind) (v : Value) : Prop :=
  v.kind = none ∨ v.kind = kind ∨ (kind = some .f64 ∧ v.kind = some .i64)

theorem hasKind_null (kind : Option TypeKind) : HasKind kind .null := .inl rfl

theorem HasKind.of_kind {kind : Option TypeKind} {v : Value} (h : v.kind = kind) :
    HasKind kind v := .inr (.inl h)

theorem hasKind_none {v : Value} (h : HasKind none v) : v = .null := by
  rcases h with h | h | h
  · exact Value.kind_eq_none.1 h
  · exact Value.kind_eq_none.1 h
  · cases h.1

theorem hasKind_bool {v : Value} (h : HasKind (some .bool) v) : v = .null ∨ ∃ b, v = .bool b := by
  cases v <;> simp_all [HasKind, Value.kind]

theorem hasKind_text {v : Value} (h : HasKind (some .text) v) : v = .null ∨ ∃ s, v = .text s := by
  cases v <;> simp_all [HasKind, Value.kind]

theorem hasKind_i64 {v : Value} (h : HasKind (some .i64) v) : v = .null ∨ ∃ n, v = .i64 n := by
  cases v <;> simp_all [HasKind, Value.kind]

theorem hasKind_f64 {v : Value} (h : HasKind (some .f64) v) :
    v = .null ∨ (∃ n, v = .i64 n) ∨ ∃ f, v = .f64 f := by
  cases v <;> simp_all [HasKind, Value.kind]

/-! ## Operators -/

theorem and3_hasKind (a b : Value) : HasKind (some .bool) (and3 a b) := by
  unfold and3
  split
  · exact .of_kind rfl
  · exact .of_kind rfl
  · exact .of_kind rfl
  · exact hasKind_null _

theorem or3_hasKind (a b : Value) : HasKind (some .bool) (or3 a b) := by
  unfold or3
  split
  · exact .of_kind rfl
  · exact .of_kind rfl
  · exact .of_kind rfl
  · exact hasKind_null _

theorem evalCmp_hasKind (op : CmpOp) (a b : Value) : HasKind (some .bool) (evalCmp op a b) := by
  unfold evalCmp
  split
  · exact hasKind_null _
  · exact .of_kind rfl

theorem nullIf_hasKind {kind : Option TypeKind} {a : Value} (h : HasKind kind a) (b : Value) :
    HasKind kind (nullIf a b) := by
  unfold nullIf
  split
  · exact hasKind_null _
  · exact h

theorem not3_sound {v : Value} (h : HasKind (some .bool) v) :
    Result.Holds Benign (HasKind (some .bool)) (not3 v) := by
  rcases hasKind_bool h with rfl | ⟨b, rfl⟩
  · exact hasKind_null _
  · exact .of_kind rfl

theorem evalLike_sound (fx : Intrinsics) (pattern : String) (ci : Bool) {v : Value}
    (h : HasKind (some .text) v) :
    Result.Holds Benign (HasKind (some .bool)) (evalLike fx pattern ci v) := by
  rcases hasKind_text h with rfl | ⟨s, rfl⟩
  · exact hasKind_null _
  · exact .of_kind rfl

/-- Integer arithmetic yields an integer, or fails as arithmetic may. -/
theorem intArith_sound (op : ArithOp) (x y : Int64) :
    Result.Holds Benign (HasKind (some .i64)) (intArith op x y) := by
  have hraw : Result.Holds Benign (fun _ => True) (checkedArith op x y) := by
    cases op with
    | div =>
      by_cases hy : y.toInt = 0
      · simp [checkedArith, hy, Result.Holds, Benign]
      · simp [checkedArith, hy, Result.Holds]
    | mod =>
      by_cases hy : y.toInt = 0
      · simp [checkedArith, hy, Result.Holds, Benign]
      · by_cases hmin : x.toInt = -2 ^ 63 ∧ y.toInt = -1
        · simp [checkedArith, hmin, Result.Holds]
        · rw [checkedArith, if_neg hy, if_neg hmin]
          trivial
    | _ => trivial
  apply hraw.bind
  intro out _
  cases out with
  | none => trivial
  | some v => exact .of_kind rfl

/-- A numeric operand is null, an integer or, when it is typed so, a float. -/
theorem numeric_cases {k k' : Option TypeKind} {v : Value} (hk : numericOperand k = .ok k')
    (hv : HasKind k v) :
    k' = k ∧ (v = .null ∨ (∃ n, v = .i64 n ∧ (k = some .i64 ∨ k = some .f64)) ∨
      ∃ f, v = .f64 f ∧ k = some .f64) := by
  cases k with
  | none =>
    cases hk
    exact ⟨rfl, .inl (hasKind_none hv)⟩
  | some kind =>
    cases kind with
    | i64 =>
      cases hk
      rcases hasKind_i64 hv with h | ⟨n, h⟩
      · exact ⟨rfl, .inl h⟩
      · exact ⟨rfl, .inr (.inl ⟨n, h, .inl rfl⟩)⟩
    | f64 =>
      cases hk
      rcases hasKind_f64 hv with h | ⟨n, h⟩ | ⟨f, h⟩
      · exact ⟨rfl, .inl h⟩
      · exact ⟨rfl, .inr (.inl ⟨n, h, .inr rfl⟩)⟩
      · exact ⟨rfl, .inr (.inr ⟨f, h, rfl⟩)⟩
    | _ => cases hk

/-- An integer where an arithmetic result is expected: both operands are typed as numbers. -/
theorem arithKind_i64 {lk rk : Option TypeKind} (hl : lk = some .i64 ∨ lk = some .f64)
    (hr : rk = some .i64 ∨ rk = some .f64) {v : Value} (hv : v.kind = some .i64) :
    HasKind (arithKind lk rk) v := by
  rcases hl with rfl | rfl <;> rcases hr with rfl | rfl
  · exact .of_kind hv
  · exact .inr (.inr ⟨rfl, hv⟩)
  · exact .inr (.inr ⟨rfl, hv⟩)
  · exact .inr (.inr ⟨rfl, hv⟩)

theorem arithKind_left (rk : Option TypeKind) : arithKind (some .f64) rk = some .f64 := by
  cases rk <;> rfl

theorem arithKind_right (lk : Option TypeKind) : arithKind lk (some .f64) = some .f64 := by
  cases lk with
  | none => rfl
  | some k => cases k <;> rfl

/-- Arithmetic on numeric operands gives a number of the kind the validator computes. -/
theorem evalArith_sound (fx : Intrinsics) (op : ArithOp) {lk rk lk' rk' : Option TypeKind}
    {a b : Value} (hl : numericOperand lk = .ok lk') (hr : numericOperand rk = .ok rk')
    (ha : HasKind lk a) (hb : HasKind rk b) :
    Result.Holds Benign (HasKind (arithKind lk' rk')) (evalArith fx op a b) := by
  obtain ⟨rfl, ha⟩ := numeric_cases hl ha
  obtain ⟨rfl, hb⟩ := numeric_cases hr hb
  rcases ha with rfl | ⟨x, rfl, hlk⟩ | ⟨x, rfl, rfl⟩
  · exact hasKind_null _
  · rcases hb with rfl | ⟨y, rfl, hrk⟩ | ⟨y, rfl, rfl⟩
    · exact hasKind_null _
    · apply (intArith_sound op x y).mono
      intro v hv
      rcases hasKind_i64 hv with rfl | ⟨n, rfl⟩
      · exact hasKind_null _
      · exact arithKind_i64 hlk hrk rfl
    · rw [arithKind_right]
      exact .of_kind rfl
  · rw [arithKind_left]
    rcases hb with rfl | ⟨y, rfl, _⟩ | ⟨y, rfl, _⟩
    · exact hasKind_null _
    · exact .of_kind rfl
    · exact .of_kind rfl

theorem renderText_sound (fx : Intrinsics) (v : Value) :
    Result.Holds Benign (fun _ => True) (renderText fx v) := by
  cases v <;> trivial

theorem orRange_sound {to_ : TypeKind} {v : Option Value} (h : ∀ w ∈ v, w.kind = some to_) :
    Result.Holds Benign (HasKind (some to_)) (orRange to_ v) := by
  cases v with
  | none => trivial
  | some w => exact .of_kind (h w rfl)

theorem map_kind {α : Type} {f : α → Value} {k : TypeKind} (hf : ∀ x, (f x).kind = some k)
    (o : Option α) : ∀ w ∈ o.map f, w.kind = some k := by
  intro w hw
  obtain ⟨x, _, rfl⟩ := Option.mem_map.1 hw
  exact hf x

/-- A conversion yields the kind it converts to, or fails as a cast may. -/
theorem convert_sound (fx : Intrinsics) (to_ : TypeKind) (v : Value) :
    Result.Holds Benign (HasKind (some to_)) (convert fx to_ v) := by
  unfold convert
  split
  · exact .of_kind rfl
  · exact orRange_sound (map_kind (fun _ => rfl) _)
  · exact .of_kind rfl
  · exact .of_kind rfl
  · exact .of_kind rfl
  · exact orRange_sound (map_kind (fun _ => rfl) _)
  · exact orRange_sound (map_kind (fun _ => rfl) _)
  · split
    · exact .of_kind rfl
    · split
      · exact .of_kind rfl
      · trivial
  · apply (renderText_sound fx _).bind
    intro s _
    exact .of_kind rfl
  · trivial

/-- A cast gives a value of its target kind or fails as a cast. -/
theorem evalCast_sound (fx : Intrinsics) (v : Value) (to_ : TypeKind) :
    Result.Holds Benign (HasKind (some to_)) (evalCast fx v to_) := by
  unfold evalCast
  split
  · exact hasKind_null _
  · split
    · next h => exact .of_kind h
    · exact convert_sound fx to_ v

/-! ## Column references -/

/-- A value for every slot, of the slot's kind. -/
abbrev RowConforms (slots : List Slot) (row : Row) : Prop :=
  List.Forall₂ (fun s v => HasKind s.ty.kind v) slots row

/-- Whether a slot is one a reference names. -/
def Slot.named (ref : Option String × String) (s : Slot) : Bool := s.column.named ref.1 ref.2

/-- The first and the last slot a reference names have one kind. The evaluator reads the
first of them, the validator types the last. -/
def RefAgrees (row : RowType) (ref : Option String × String) : Prop :=
  (row.slots.find? (Slot.named ref)).map (fun s => s.ty.kind)
    = (row.slots.reverse.find? (Slot.named ref)).map (fun s => s.ty.kind)

/-- The validator types a reference by the last slot it names. -/
theorem resolveFrom_eq_ok {qualifier : Option String} {column : String} {slots : List Slot} :
    ∀ {hit : Option FieldType} {ty : FieldType},
      RowType.resolveFrom qualifier column hit slots = .ok ty →
      ((slots.reverse.find? (Slot.named (qualifier, column))).map Slot.ty).or hit = some ty := by
  induction slots with
  | nil =>
    intro hit ty h
    cases hit with
    | none => cases h
    | some ty' =>
      cases h
      rfl
  | cons slot slots ih =>
    intro hit ty h
    rw [List.reverse_cons, List.find?_append]
    by_cases hs : Slot.named (qualifier, column) slot = true
    · have hs' : slot.column.named qualifier column = true := hs
      rw [RowType.resolveFrom, if_pos hs'] at h
      split at h
      · cases h
      · have hrest := ih h
        cases hlast : slots.reverse.find? (Slot.named (qualifier, column)) with
        | none =>
          rw [hlast] at hrest
          simpa [hs] using hrest
        | some last =>
          rw [hlast] at hrest
          simpa using hrest
    · have hs' : ¬ slot.column.named qualifier column = true := hs
      rw [RowType.resolveFrom, if_neg hs'] at h
      simpa [hs] using ih h

/-- The evaluator reads the value of the first slot a reference names. -/
theorem findIdx?_slot {ref : Option String × String} {slots : List Slot} {row : Row} {s : Slot}
    (hrow : RowConforms slots row) (hs : slots.find? (Slot.named ref) = some s) :
    ∃ idx, (slots.map Slot.column).findIdx? (fun c => c.named ref.1 ref.2) = some idx ∧
      HasKind s.ty.kind (row.getD idx .null) := by
  induction hrow with
  | nil => cases hs
  | @cons slot v slots row hv _ ih =>
    by_cases hn : Slot.named ref slot = true
    · have hn' : slot.column.named ref.1 ref.2 = true := hn
      rw [List.find?_cons_of_pos hn] at hs
      cases hs
      refine ⟨0, ?_, hv⟩
      rw [List.map_cons, List.findIdx?_cons, hn']
      rfl
    · rw [List.find?_cons_of_neg hn] at hs
      obtain ⟨idx, hidx, hkind⟩ := ih hs
      have hn' : slot.column.named ref.1 ref.2 = false := eq_false_of_ne_true hn
      refine ⟨idx + 1, ?_, hkind⟩
      rw [List.map_cons, List.findIdx?_cons, hn', hidx]
      rfl

/-- A resolved reference evaluates to a value of its type. -/
theorem column_sound (fx : Intrinsics) {rowTy : RowType} {row : Row}
    (hrow : RowConforms rowTy.slots row) {qualifier : Option String} {column : String}
    {ty : FieldType} (hty : rowTy.resolve qualifier column = .ok ty)
    (hag : RefAgrees rowTy (qualifier, column)) :
    Result.Holds Benign (HasKind ty.kind)
      (eval fx row ⟨rowTy.slots.map Slot.column⟩ (.column qualifier column)) := by
  have hlast := resolveFrom_eq_ok hty
  rw [Option.or_none] at hlast
  obtain ⟨last, hfind, rfl⟩ := Option.map_eq_some_iff.1 hlast
  rw [RefAgrees, hfind, Option.map_some] at hag
  obtain ⟨first, hfirst, hkind⟩ := Option.map_eq_some_iff.1 hag
  obtain ⟨idx, hidx, hv⟩ := findIdx?_slot hrow hfirst
  have hres : Shape.resolve ⟨rowTy.slots.map Slot.column⟩ qualifier column = some idx := hidx
  rw [eval, hres]
  show HasKind last.ty.kind _
  rw [← hkind]
  exact hv

/-! ## Expressions -/

/-- Every reference in an expression agrees. -/
def ExprAgrees (row : RowType) (e : Expr) : Prop := ∀ ref ∈ columnRefs e, RefAgrees row ref

def ExprsAgree (row : RowType) (es : List Expr) : Prop :=
  ∀ ref ∈ columnRefsAll es, RefAgrees row ref

theorem booleanOperand_eq_ok {context : String} {ty : FieldType}
    (h : booleanOperand context ty = .ok ()) : ty.kind = some .bool ∨ ty.kind = none := by
  unfold booleanOperand at h
  split at h
  · exact .inl ‹_›
  · exact .inr ‹_›
  · cases h

theorem HasKind.of_operand {kind kind' : Option TypeKind} {v : Value} (hv : HasKind kind v)
    (h : kind = kind' ∨ kind = none) : HasKind kind' v := by
  rcases h with rfl | rfl
  · exact hv
  · rw [hasKind_none hv]
    exact hasKind_null _

theorem textOperand_eq_ok {ty : FieldType} (h : textOperand ty = .ok ()) :
    ty.kind = some .text ∨ ty.kind = none := by
  unfold textOperand at h
  split at h
  · exact .inl ‹_›
  · exact .inr ‹_›
  · cases h

theorem hasKind_numeric {k : TypeKind} (hk : isNumeric k = true) {v : Value}
    (hv : HasKind (some k) v) : HasKind (some .f64) v := by
  cases k with
  | i64 =>
    rcases hv with hv | hv | hv
    · exact .inl hv
    · exact .inr (.inr ⟨rfl, hv⟩)
    · cases hv.1
  | f64 => exact hv
  | _ => cases hk

/-- The common kind of two branches has the values of both. -/
theorem unify_hasKind {a b k : Option TypeKind} (h : unify a b = .ok k) {v : Value}
    (hv : HasKind a v ∨ HasKind b v) : HasKind k v := by
  unfold unify at h
  split at h
  · cases h
    exact hv.elim (fun hv => hv.of_operand (.inr rfl)) id
  · cases h
    exact hv.elim id (fun hv => hv.of_operand (.inr rfl))
  · next a b =>
    split at h
    · next hab =>
      cases h
      subst hab
      exact hv.elim id id
    · split at h
      · next hnum =>
        cases h
        rw [Bool.and_eq_true] at hnum
        -- two different numeric kinds: an integer stands for a float
        exact hv.elim (hasKind_numeric hnum.1) (hasKind_numeric hnum.2)
      · cases h

section

variable (fx : Intrinsics) {rowTy : RowType} {row : Row}

theorem ExprAgrees.left {es : List (Option String × String)} {e : Expr}
    (h : ∀ ref ∈ columnRefs e ++ es, RefAgrees rowTy ref) : ExprAgrees rowTy e :=
  fun ref href => h ref (List.mem_append_left _ href)

theorem agree_right {es fs : List (Option String × String)}
    (h : ∀ ref ∈ fs ++ es, RefAgrees rowTy ref) : ∀ ref ∈ es, RefAgrees rowTy ref :=
  fun ref href => h ref (List.mem_append_right _ href)

mutual

/-- A typed expression evaluates to a value of its type or fails on the data. -/
theorem eval_sound (hrow : RowConforms rowTy.slots row) :
    ∀ (e : Expr) {ty : FieldType}, checkExpr rowTy e = .ok ty → ExprAgrees rowTy e →
      Result.Holds Benign (HasKind ty.kind) (eval fx row ⟨rowTy.slots.map Slot.column⟩ e)
  | .column qualifier column, ty, h, hag =>
    column_sound fx hrow (by rwa [checkExpr] at h) (hag _ (by simp [columnRefs]))
  | .literal value, ty, h, _ => by
    rw [checkExpr] at h
    cases h
    rw [eval, literalType]
    apply HasKind.of_kind
    cases value.kind <;> rfl
  | .cmp op lhs rhs, ty, h, hag => by
    rw [checkExpr] at h
    obtain ⟨l, hl, h⟩ := Result.bind_eq_ok.1 h
    obtain ⟨r, hr, h⟩ := Result.bind_eq_ok.1 h
    obtain ⟨_, _, h⟩ := Result.bind_eq_ok.1 h
    cases h
    rw [ExprAgrees, columnRefs] at hag
    rw [eval]
    apply (eval_sound hrow lhs hl (.left hag)).bind
    intro a _
    apply (eval_sound hrow rhs hr (agree_right hag)).bind
    intro b _
    exact evalCmp_hasKind op a b
  | .and items, ty, h, hag => by
    rw [checkExpr] at h
    rw [eval]
    -- what the connective has so far is a boolean, from the first item on
    exact (checkBools_sound hrow items h hag).1 _ (.of_kind rfl)
  | .or items, ty, h, hag => by
    rw [checkExpr] at h
    rw [eval]
    exact (checkBools_sound hrow items h hag).2 _ (.of_kind rfl)
  | .not inner, ty, h, hag => by
    rw [checkExpr] at h
    obtain ⟨t, ht, h⟩ := Result.bind_eq_ok.1 h
    obtain ⟨_, hb, h⟩ := Result.bind_eq_ok.1 h
    cases h
    rw [eval]
    apply (eval_sound hrow inner ht hag).bind
    intro v hv
    exact not3_sound (hv.of_operand (booleanOperand_eq_ok hb))
  | .arith op lhs rhs, ty, h, hag => by
    rw [checkExpr] at h
    obtain ⟨l, hl, h⟩ := Result.bind_eq_ok.1 h
    obtain ⟨r, hr, h⟩ := Result.bind_eq_ok.1 h
    obtain ⟨lk, hlk, h⟩ := Result.bind_eq_ok.1 h
    obtain ⟨rk, hrk, h⟩ := Result.bind_eq_ok.1 h
    cases h
    rw [ExprAgrees, columnRefs] at hag
    rw [eval]
    -- both operands are numbers or NULL; what can go wrong is in the numbers
    apply (eval_sound hrow lhs hl (.left hag)).bind
    intro a ha
    apply (eval_sound hrow rhs hr (agree_right hag)).bind
    intro b hb
    exact evalArith_sound fx op hlk hrk ha hb
  | .isNull inner, ty, h, hag => by
    rw [checkExpr] at h
    obtain ⟨t, ht, h⟩ := Result.bind_eq_ok.1 h
    cases h
    rw [eval]
    apply (eval_sound hrow inner ht hag).bind
    intro v _
    exact .of_kind rfl
  | .isNotNull inner, ty, h, hag => by
    rw [checkExpr] at h
    obtain ⟨t, ht, h⟩ := Result.bind_eq_ok.1 h
    cases h
    rw [eval]
    apply (eval_sound hrow inner ht hag).bind
    intro v _
    exact .of_kind rfl
  | .between expr lo hi, ty, h, hag => by
    rw [checkExpr] at h
    -- the three operands in the order they are evaluated in
    obtain ⟨e, he, h⟩ := Result.bind_eq_ok.1 h
    obtain ⟨l, hl, h⟩ := Result.bind_eq_ok.1 h
    obtain ⟨u, hu, h⟩ := Result.bind_eq_ok.1 h
    obtain ⟨_, _, h⟩ := Result.bind_eq_ok.1 h
    obtain ⟨_, _, h⟩ := Result.bind_eq_ok.1 h
    cases h
    rw [ExprAgrees, columnRefs, List.append_assoc] at hag
    rw [eval]
    apply (eval_sound hrow expr he (.left hag)).bind
    intro v _
    apply (eval_sound hrow lo hl (.left (agree_right hag))).bind
    intro a _
    apply (eval_sound hrow hi hu (agree_right (agree_right hag))).bind
    intro b _
    exact and3_hasKind _ _
  | .inList expr list, ty, h, hag => by
    rw [checkExpr] at h
    obtain ⟨e, he, h⟩ := Result.bind_eq_ok.1 h
    rw [ExprAgrees, columnRefs] at hag
    rw [eval]
    apply (eval_sound hrow expr he (.left hag)).bind
    intro v _
    -- the items are compared one by one, with no match so far
    obtain ⟨hkind, hin⟩ := checkIn_sound hrow list h (agree_right hag)
    split
    · exact hasKind_null _
    · rw [hkind]
      exact hin v false
  | .like expr pattern ci, ty, h, hag => by
    rw [checkExpr] at h
    obtain ⟨e, he, h⟩ := Result.bind_eq_ok.1 h
    obtain ⟨_, ht, h⟩ := Result.bind_eq_ok.1 h
    cases h
    rw [eval]
    apply (eval_sound hrow expr he hag).bind
    intro v hv
    exact evalLike_sound fx pattern ci (hv.of_operand (textOperand_eq_ok ht))
  | .coalesce items, ty, h, hag => by
    rw [checkExpr] at h
    rw [eval]
    exact (checkCoalesce_sound hrow items h hag).2
  | .nullIf lhs rhs, ty, h, hag => by
    rw [checkExpr] at h
    obtain ⟨l, hl, h⟩ := Result.bind_eq_ok.1 h
    obtain ⟨r, hr, h⟩ := Result.bind_eq_ok.1 h
    obtain ⟨_, _, h⟩ := Result.bind_eq_ok.1 h
    cases h
    rw [ExprAgrees, columnRefs] at hag
    rw [eval]
    apply (eval_sound hrow lhs hl (.left hag)).bind
    intro a ha
    apply (eval_sound hrow rhs hr (agree_right hag)).bind
    intro b _
    exact nullIf_hasKind ha b
  | .cast expr to_, ty, h, hag => by
    rw [checkExpr] at h
    obtain ⟨e, he, h⟩ := Result.bind_eq_ok.1 h
    split at h
    · cases h
    · cases h
      rw [eval]
      apply (eval_sound hrow expr he hag).bind
      intro v _
      exact evalCast_sound fx v to_
  -- an aggregate is no scalar, and the checker refuses it here
  | .agg func arg, ty, h, _ => by
    rw [checkExpr] at h
    cases h

/-- The items of a connective, under either connective. -/
theorem checkBools_sound (hrow : RowConforms rowTy.slots row) :
    ∀ (items : List Expr) {nullable : Bool} {ty : FieldType},
      checkBools rowTy nullable items = .ok ty → ExprsAgree rowTy items →
      (∀ acc, HasKind (some .bool) acc → Result.Holds Benign (HasKind ty.kind)
        (evalAnd fx row ⟨rowTy.slots.map Slot.column⟩ acc items)) ∧
      (∀ acc, HasKind (some .bool) acc → Result.Holds Benign (HasKind ty.kind)
        (evalOr fx row ⟨rowTy.slots.map Slot.column⟩ acc items))
  | [], nullable, ty, h, _ => by
    rw [checkBools] at h
    cases h
    constructor
    · intro acc hacc
      rw [evalAnd]
      exact hacc
    · intro acc hacc
      rw [evalOr]
      exact hacc
  | item :: items, nullable, ty, h, hag => by
    rw [checkBools] at h
    obtain ⟨t, ht, h⟩ := Result.bind_eq_ok.1 h
    obtain ⟨_, _, h⟩ := Result.bind_eq_ok.1 h
    rw [ExprsAgree, columnRefsAll] at hag
    -- the items were checked one by one, and each may end the evaluation with its own failure
    have hitem := eval_sound hrow item ht (.left hag)
    obtain ⟨hand, hor⟩ := checkBools_sound hrow items h (agree_right hag)
    constructor
    · intro acc _
      rw [evalAnd]
      apply hitem.bind
      intro v _
      exact hand _ (and3_hasKind acc v)
    · intro acc _
      rw [evalOr]
      apply hitem.bind
      intro v _
      exact hor _ (or3_hasKind acc v)

/-- The candidates of an `in`. -/
theorem checkIn_sound (hrow : RowConforms rowTy.slots row) :
    ∀ (items : List Expr) {kind : Option TypeKind} {nullable : Bool} {ty : FieldType},
      checkIn rowTy kind nullable items = .ok ty → ExprsAgree rowTy items →
      ty.kind = some .bool ∧ ∀ v sawNull, Result.Holds Benign (HasKind (some .bool))
        (evalIn fx row ⟨rowTy.slots.map Slot.column⟩ v sawNull items)
  | [], kind, nullable, ty, h, _ => by
    rw [checkIn] at h
    cases h
    refine ⟨rfl, ?_⟩
    intro v sawNull
    rw [evalIn]
    cases sawNull with
    | true => exact hasKind_null _
    | false => exact .of_kind rfl
  | item :: items, kind, nullable, ty, h, hag => by
    rw [checkIn] at h
    obtain ⟨t, ht, h⟩ := Result.bind_eq_ok.1 h
    obtain ⟨_, _, h⟩ := Result.bind_eq_ok.1 h
    rw [ExprsAgree, columnRefsAll] at hag
    obtain ⟨hkind, hin⟩ := checkIn_sound hrow items h (agree_right hag)
    refine ⟨hkind, ?_⟩
    intro v sawNull
    rw [evalIn]
    apply (eval_sound hrow item ht (.left hag)).bind
    intro w _
    split
    · exact .of_kind rfl
    · exact hin v true
    · exact hin v sawNull

/-- The branches of a `coalesce`: the result type has the values of every branch. -/
theorem checkCoalesce_sound (hrow : RowConforms rowTy.slots row) :
    ∀ (items : List Expr) {kind : Option TypeKind} {nullable : Bool} {ty : FieldType},
      checkCoalesce rowTy kind nullable items = .ok ty → ExprsAgree rowTy items →
      (∀ v, HasKind kind v → HasKind ty.kind v) ∧ Result.Holds Benign (HasKind ty.kind)
        (evalCoalesce fx row ⟨rowTy.slots.map Slot.column⟩ items)
  | [], kind, nullable, ty, h, _ => by
    rw [checkCoalesce] at h
    cases h
    refine ⟨fun _ hv => hv, ?_⟩
    rw [evalCoalesce]
    exact hasKind_null _
  | item :: items, kind, nullable, ty, h, hag => by
    rw [checkCoalesce] at h
    obtain ⟨t, ht, h⟩ := Result.bind_eq_ok.1 h
    obtain ⟨k, hk, h⟩ := Result.bind_eq_ok.1 h
    rw [ExprsAgree, columnRefsAll] at hag
    obtain ⟨hwiden, hrest⟩ := checkCoalesce_sound hrow items h (agree_right hag)
    refine ⟨fun v hv => hwiden v (unify_hasKind hk (.inl hv)), ?_⟩
    rw [evalCoalesce]
    apply (eval_sound hrow item ht (.left hag)).bind
    intro v hv
    split
    · exact hrest
    · exact hwiden v (unify_hasKind hk (.inr hv))

end

end

/-- A predicate of a typed row decides or fails on the data. -/
theorem evalPredicate_sound (fx : Intrinsics) {rowTy : RowType} {row : Row} {pred : Expr}
    {context : String} (hrow : RowConforms rowTy.slots row)
    (h : checkPredicate rowTy pred context = .ok ()) (hag : ExprAgrees rowTy pred) :
    Result.Holds Benign (fun _ => True)
      (evalPredicate fx pred row ⟨rowTy.slots.map Slot.column⟩) := by
  obtain ⟨ty, hty, _⟩ := Result.bind_eq_ok.1 h
  apply (eval_sound fx hrow pred hty hag).bind
  intro v _
  trivial

/-! ## Aggregates -/

/-- The argument of an aggregate agrees, and a `sum` is over numbers. The validator types a
`sum` like its argument, but the executor adds up integers whatever the argument is. -/
def AggAgrees (row : RowType) : Expr → Prop
  | .agg func arg => ExprAgrees row arg ∧
    (func = .sum → ∀ ty, checkExpr row arg = .ok ty → ∃ k, numericOperand ty.kind = .ok k)
  | _ => True

/-- A sum of integers fails by overflow only. -/
theorem sumI64_sound {vals : List Value} :
    ∀ {acc : Int64}, Result.Holds Benign (fun _ => True) (sumI64 acc vals) := by
  induction vals with
  | nil =>
    intro acc
    trivial
  | cons v vals ih =>
    intro acc
    cases v with
    | i64 n =>
      rw [sumI64]
      split
      · exact ih
      · trivial
    | _ => exact ih

/-- The sum of typed numbers is one of their kind. -/
theorem sum_sound (fx : Intrinsics) {kind k : Option TypeKind} (hk : numericOperand kind = .ok k)
    {vals : List Value} (hvals : ∀ v ∈ vals, HasKind kind v ∧ v.isNull = false) :
    Result.Holds Benign (HasKind kind) (sum fx vals) := by
  rw [sum]
  split
  · exact hasKind_null _
  · split
    · next hf =>
      -- a float among the values: the kind is the float kind
      obtain ⟨v, hv, hvf⟩ := List.any_eq_true.1 hf
      obtain ⟨-, hcase⟩ := numeric_cases hk (hvals v hv).1
      rcases hcase with rfl | ⟨n, rfl, _⟩ | ⟨f, rfl, rfl⟩
      · cases hvf
      · cases hvf
      · exact .of_kind rfl
    · next hne _ =>
      apply sumI64_sound.bind
      intro acc _
      -- some value is not null, so the kind is a numeric one
      obtain ⟨v, rest, rfl⟩ := List.exists_cons_of_ne_nil hne
      have hv := hvals v (by simp)
      obtain ⟨-, hcase⟩ := numeric_cases hk hv.1
      rcases hcase with rfl | ⟨n, _, rfl | rfl⟩ | ⟨f, _, rfl⟩
      · cases hv.2
      · exact .of_kind rfl
      · exact .inr (.inr ⟨rfl, rfl⟩)
      · exact .inr (.inr ⟨rfl, rfl⟩)

/-- A value picked from a list by a fold is one of the list. -/
theorem foldl_pick_mem {pick : Value → Value → Value} (hp : ∀ x y, pick x y = x ∨ pick x y = y)
    (vs : List Value) : ∀ v, vs.foldl pick v ∈ v :: vs := by
  induction vs with
  | nil =>
    intro v
    exact List.mem_singleton_self v
  | cons w vs ih =>
    intro v
    have h := ih (pick v w)
    rw [List.foldl_cons]
    rcases hp v w with hw | hw
    · rw [hw] at h ⊢
      grind
    · rw [hw] at h ⊢
      grind

theorem minBy_mem {vals : List Value} {v : Value} (h : minBy vals = some v) : v ∈ vals := by
  cases vals with
  | nil => cases h
  | cons w vals =>
    cases h
    apply foldl_pick_mem
    intro x y
    split
    · exact .inr rfl
    · exact .inl rfl

theorem maxBy_mem {vals : List Value} {v : Value} (h : maxBy vals = some v) : v ∈ vals := by
  cases vals with
  | nil => cases h
  | cons w vals =>
    cases h
    apply foldl_pick_mem
    intro x y
    split
    · exact .inl rfl
    · exact .inr rfl

theorem getD_hasKind {kind : Option TypeKind} {vals : List Value} {o : Option Value}
    (hvals : ∀ v ∈ vals, HasKind kind v ∧ v.isNull = false) (ho : ∀ v, o = some v → v ∈ vals) :
    HasKind kind (o.getD .null) := by
  cases o with
  | none => exact hasKind_null _
  | some v => exact (hvals v (ho v rfl)).1

/-- An aggregate function over typed values gives a value of the type of the call. -/
theorem applyAgg_sound (fx : Intrinsics) {func : AggFunc} {ty : FieldType} {vals : List Value}
    (hsum : func = .sum → ∃ k, numericOperand ty.kind = .ok k)
    (hvals : ∀ v ∈ vals, HasKind ty.kind v ∧ v.isNull = false) :
    Result.Holds Benign (HasKind (aggType func ty).kind) (applyAgg fx func vals) := by
  cases func with
  | count => exact .of_kind rfl
  | sum =>
    obtain ⟨k, hk⟩ := hsum rfl
    exact sum_sound fx hk hvals
  | min => exact getD_hasKind hvals (fun _ => minBy_mem)
  | max => exact getD_hasKind hvals (fun _ => maxBy_mem)
  | avg =>
    show HasKind (some .f64) (avg fx vals)
    rw [avg]
    split
    · exact hasKind_null _
    · exact .of_kind rfl

/-- An aggregate function yields the kind it was checked to have. -/
theorem computeAgg_sound (fx : Intrinsics) {rowTy : RowType} {members : List Row} {expr : Expr}
    {ty : FieldType} (hrows : ∀ row ∈ members, RowConforms rowTy.slots row)
    (h : checkAggregate rowTy expr = .ok ty) (hag : AggAgrees rowTy expr) :
    Result.Holds Benign (HasKind ty.kind)
      (computeAgg fx expr members ⟨rowTy.slots.map Slot.column⟩) := by
  cases expr with
  | agg func arg =>
    obtain ⟨argTy, hty, h⟩ := Result.bind_eq_ok.1 h
    cases h
    apply Result.Holds.bind (Result.Holds.mapM_forall (fun row hr =>
      eval_sound fx (hrows row hr) arg hty hag.1))
    intro vals hvals
    apply applyAgg_sound fx (fun hs => hag.2 hs argTy hty)
    intro v hv
    rw [List.mem_filter] at hv
    exact ⟨hvals v hv.1, by simpa using hv.2⟩
  | _ => cases h

/-! ## Relations -/

/-- Failures of execution other than an ill-typed evaluation. -/
def ExecBenign : ExecError → Prop
  | .eval e => Benign e
  | _ => True

/-- A relation has the columns of a row type and rows that conform to it. -/
def RelConforms (rowTy : RowType) (rel : Relation) : Prop :=
  rel.shape = ⟨rowTy.slots.map Slot.column⟩ ∧ ∀ row ∈ rel.rows, RowConforms rowTy.slots row

theorem ofEval_sound {α : Type} {P : α → Prop} {x : Except EvalError α}
    (h : Result.Holds Benign P x) : Result.Holds ExecBenign P (ofEval x) := by
  cases x with
  | ok a => exact h
  | error e => exact h

/-- Whatever the catalog fails with is no evaluation failure. -/
theorem ofCatalog_sound {α : Type} {P : α → Prop} {x : CatResult α}
    (h : Result.Holds (fun _ => True) P x) : Result.Holds ExecBenign P (ofCatalog x) := by
  cases x with
  | ok a => exact h
  | error e => trivial

section

variable (fx : Intrinsics) {rowTy : RowType}

/-- A filter keeps the row type. -/
theorem filterRows_sound {pred : Expr} {context : String} {rows : List Row}
    (hrows : ∀ row ∈ rows, RowConforms rowTy.slots row)
    (h : checkPredicate rowTy pred context = .ok ()) (hag : ExprAgrees rowTy pred) :
    Result.Holds ExecBenign (fun out => ∀ row ∈ out, RowConforms rowTy.slots row)
      (filterRows fx pred ⟨rowTy.slots.map Slot.column⟩ rows) := by
  induction rows with
  | nil => exact fun row hr => by cases hr
  | cons row rows ih =>
    have hrow := hrows row (by simp)
    rw [filterRows]
    apply (ofEval_sound (evalPredicate_sound fx hrow h hag)).bind
    intro keep _
    apply (ih (fun r hr => hrows r (List.mem_cons_of_mem _ hr))).bind
    intro rest hrest r hr
    cases keep with
    | true =>
      rcases List.mem_cons.1 hr with rfl | hr
      · exact hrow
      · exact hrest r hr
    | false => exact hrest r hr

/-- The predicate of a join agrees, when there is one. -/
def OnAgrees (row : RowType) (on : Option Expr) : Prop := ∀ e, on = some e → ExprAgrees row e

theorem keeps_sound {on : Option Expr} {row : Row} (hrow : RowConforms rowTy.slots row)
    (h : checkOn rowTy on = .ok ()) (hag : OnAgrees rowTy on) :
    Result.Holds ExecBenign (fun _ => True)
      (keeps fx on ⟨rowTy.slots.map Slot.column⟩ row) := by
  cases on with
  | none => trivial
  | some pred => exact ofEval_sound (evalPredicate_sound fx hrow h (hag pred rfl))

section Join

variable {lslots rslots : List Slot} (hslots : rowTy.slots = lslots ++ rslots)

include hslots

theorem concat_conforms {lrow rrow : Row} (hl : RowConforms lslots lrow)
    (hr : RowConforms rslots rrow) : RowConforms rowTy.slots (lrow ++ rrow) := by
  rw [hslots]
  exact List.rel_append hl hr

/-- A left row is joined to rows of the joined type. -/
theorem joinRow_sound {on : Option Expr} (h : checkOn rowTy on = .ok ())
    (hag : OnAgrees rowTy on) {lrow : Row} (hl : RowConforms lslots lrow) {rrows : List Row}
    (hr : ∀ row ∈ rrows, RowConforms rslots row) :
    Result.Holds ExecBenign (fun out => ∀ row ∈ out, RowConforms rowTy.slots row)
      (joinRow fx on ⟨rowTy.slots.map Slot.column⟩ lrow rrows) := by
  induction rrows with
  | nil => exact fun row hr => by cases hr
  | cons rrow rrows ih =>
    have hrow := concat_conforms hslots hl (hr rrow (by simp))
    rw [joinRow]
    apply (keeps_sound fx hrow h hag).bind
    intro keep _
    apply (ih (fun r hm => hr r (List.mem_cons_of_mem _ hm))).bind
    intro rest hrest r hm
    cases keep with
    | true =>
      rcases List.mem_cons.1 hm with rfl | hm
      · exact hrow
      · exact hrest r hm
    | false => exact hrest r hm

omit hslots in
theorem nulls_conform (slots : List Slot) :
    RowConforms slots (List.replicate slots.length .null) := by
  induction slots with
  | nil => exact .nil
  | cons s slots ih => exact .cons (hasKind_null _) ih

/-- A join of two row types has the joined type. -/
theorem joinRows_sound {kind : JoinKind} {on : Option Expr} (h : checkOn rowTy on = .ok ())
    (hag : OnAgrees rowTy on) {lrows rrows : List Row}
    (hl : ∀ row ∈ lrows, RowConforms lslots row) (hr : ∀ row ∈ rrows, RowConforms rslots row) :
    Result.Holds ExecBenign (fun out => ∀ row ∈ out, RowConforms rowTy.slots row)
      (joinRows fx kind on ⟨rowTy.slots.map Slot.column⟩ rslots.length rrows lrows) := by
  induction lrows with
  | nil => exact fun row hr => by cases hr
  | cons lrow lrows ih =>
    have hlrow := hl lrow (by simp)
    rw [joinRows]
    apply (joinRow_sound fx hslots h hag hlrow hr).bind
    intro joined hjoined
    apply (ih (fun r hm => hl r (List.mem_cons_of_mem _ hm))).bind
    intro rest hrest r hm
    rcases List.mem_append.1 hm with hm | hm
    · unfold padUnmatched at hm
      split at hm
      · -- an unmatched left row: nulls conform to any slots
        rw [List.mem_singleton.1 hm]
        exact concat_conforms hslots hlrow (nulls_conform rslots)
      · exact hjoined r hm
    · exact hrest r hm

end Join

/-! ### Groups -/

/-- The members of every group conform. -/
def GroupsConform (slots : List Slot) (groups : List Group) : Prop :=
  ∀ g ∈ groups, ∀ row ∈ g.members, RowConforms slots row

/-- A row joins its group and keeps the row type. -/
theorem addToGroup_conforms {slots : List Slot} {key row : Row} (hrow : RowConforms slots row)
    {groups : List Group} (hg : GroupsConform slots groups) :
    GroupsConform slots (addToGroup key row groups) := by
  induction groups with
  | nil =>
    intro g hm r hr
    rw [addToGroup, List.mem_singleton] at hm
    subst hm
    rw [List.mem_singleton.1 hr]
    exact hrow
  | cons g groups ih =>
    have hrest : GroupsConform slots groups := fun g' hm => hg g' (List.mem_cons_of_mem _ hm)
    rw [addToGroup]
    split
    · intro g' hm r hr
      rcases List.mem_cons.1 hm with rfl | hm
      · rcases List.mem_append.1 hr with hr | hr
        · exact hg g (by simp) r hr
        · rw [List.mem_singleton.1 hr]
          exact hrow
      · exact hrest g' hm r hr
    · intro g' hm
      rcases List.mem_cons.1 hm with rfl | hm
      · exact hg g' (by simp)
      · exact ih hrest g' hm

theorem checkKey_eq_ok {context : String} {e : Expr} (h : checkKey rowTy context e = .ok ()) :
    ∃ ty, checkExpr rowTy e = .ok ty := by
  obtain ⟨ty, hty, _⟩ := Result.bind_eq_ok.1 h
  exact ⟨ty, hty⟩

/-- The keys of a row are evaluated as they were checked. -/
theorem keys_sound {es : List Expr} {row : Row} (hrow : RowConforms rowTy.slots row)
    (h : ∀ e ∈ es, ∃ ty, checkExpr rowTy e = .ok ty) (hag : ∀ e ∈ es, ExprAgrees rowTy e) :
    Result.Holds Benign (fun _ => True)
      (es.mapM (eval fx row ⟨rowTy.slots.map Slot.column⟩)) := by
  have hall : ∀ e ∈ es, Result.Holds Benign (fun _ => True)
      (eval fx row ⟨rowTy.slots.map Slot.column⟩ e) := by
    intro e he
    obtain ⟨ty, hty⟩ := h e he
    exact (eval_sound fx hrow e hty (hag e he)).mono (fun _ _ => trivial)
  exact (Result.Holds.mapM_forall hall).mono (fun _ _ => trivial)

/-- Grouping keeps the row type in every group. -/
theorem bucket_sound {by_ : List Expr} (h : ∀ e ∈ by_, ∃ ty, checkExpr rowTy e = .ok ty)
    (hag : ∀ e ∈ by_, ExprAgrees rowTy e) {rows : List Row}
    (hrows : ∀ row ∈ rows, RowConforms rowTy.slots row) :
    ∀ {groups : List Group}, GroupsConform rowTy.slots groups →
      Result.Holds Benign (GroupsConform rowTy.slots)
        (bucket fx by_ ⟨rowTy.slots.map Slot.column⟩ groups rows) := by
  induction rows with
  | nil =>
    intro groups hg
    exact hg
  | cons row rows ih =>
    intro groups hg
    have hrow := hrows row (by simp)
    rw [bucket]
    apply (keys_sound fx hrow h hag).bind
    intro key _
    exact ih (fun r hr => hrows r (List.mem_cons_of_mem _ hr)) (addToGroup_conforms hrow hg)

omit rowTy in
/-- Outputs computed one by one conform to slots computed one by one. -/
theorem mapM_conforms {α : Type} {R : α → Slot → Prop} {f : α → Except EvalError Value}
    {items : List α} {outs : List Slot} (h : List.Forall₂ R items outs)
    (hf : ∀ a ∈ items, ∀ s, R a s → Result.Holds Benign (HasKind s.ty.kind) (f a)) :
    Result.Holds Benign (RowConforms outs) (items.mapM f) := by
  induction h with
  | nil => exact List.Forall₂.nil
  | @cons a s items outs has _ ih =>
    rw [List.mapM_cons]
    apply (hf a (by simp) s has).bind
    intro v hv
    apply (ih (fun b hb => hf b (List.mem_cons_of_mem _ hb))).bind
    intro vs hvs
    exact List.Forall₂.cons hv hvs

omit rowTy in
theorem map_column {α : Type} {R : α → Slot → Prop} {g : α → BoundColumn} {items : List α}
    {outs : List Slot} (h : List.Forall₂ R items outs) (hg : ∀ a s, R a s → s.column = g a) :
    outs.map Slot.column = items.map g := by
  induction h with
  | nil => rfl
  | cons has _ ih => rw [List.map_cons, List.map_cons, ih, hg _ _ has]

/-- What the validator computes for an aggregate output. -/
def AggSlot (rowTy : RowType) (a : String × Expr) (s : Slot) : Prop :=
  ∃ ty, checkAggregate rowTy a.2 = .ok ty ∧ s = outputSlot a.1 ty

/-- The row of a group has the input columns and those of the functions. -/
theorem groupRow_sound {aggs : List (String × Expr)} {outs : List Slot}
    (houts : List.Forall₂ (AggSlot rowTy) aggs outs)
    (hag : ∀ a ∈ aggs, AggAgrees rowTy a.2) {g : Group}
    (hg : ∀ row ∈ g.members, RowConforms rowTy.slots row) :
    Result.Holds Benign (RowConforms (rowTy.slots ++ outs))
      (groupRow fx aggs ⟨rowTy.slots.map Slot.column⟩ g) := by
  rw [groupRow]
  apply Result.Holds.bind (mapM_conforms houts ?_)
  · intro vals hvals
    apply List.rel_append _ hvals
    cases hm : g.members with
    | nil =>
      show RowConforms _ (List.replicate (rowTy.slots.map Slot.column).length .null)
      rw [List.length_map]
      exact nulls_conform _
    | cons row rows => exact hg row (by simp [hm])
  · intro a ha s hs
    obtain ⟨ty, hty, rfl⟩ := hs
    exact computeAgg_sound fx hg hty (hag a ha)

/-- An aggregate has the type it was checked to have. -/
theorem aggregate_sound {rel : Relation} {by_ : List Expr} {aggs : List (String × Expr)}
    {outs : List Slot} (hrel : RelConforms rowTy rel)
    (hby : ∀ e ∈ by_, ∃ ty, checkExpr rowTy e = .ok ty)
    (hagb : ∀ e ∈ by_, ExprAgrees rowTy e) (houts : List.Forall₂ (AggSlot rowTy) aggs outs)
    (haga : ∀ a ∈ aggs, AggAgrees rowTy a.2) :
    Result.Holds ExecBenign (RelConforms ⟨rowTy.slots ++ outs⟩)
      (aggregate fx rel by_ aggs) := by
  obtain ⟨hshape, hrows⟩ := hrel
  rw [aggregate, hshape]
  have hnone : GroupsConform rowTy.slots [] := fun g hg => by cases hg
  apply (ofEval_sound (bucket_sound fx hby hagb hrows hnone)).bind
  intro groups hgroups
  have hglobal : GroupsConform rowTy.slots (globalGroup by_ groups) := by
    unfold globalGroup
    split
    · intro g hg row hr
      rw [List.mem_singleton.1 hg] at hr
      cases hr
    · exact hgroups
  apply (ofEval_sound (Result.Holds.mapM_forall (fun g hg =>
    groupRow_sound fx houts haga (hglobal g hg)))).bind
  intro rows hconf
  refine ⟨?_, hconf⟩
  show Shape.mk _ = _
  rw [List.map_append, map_column houts]
  intro a s hs
  obtain ⟨ty, _, rfl⟩ := hs
  rfl

/-! ### Projection, duplicates, order -/

/-- What the validator computes for a projection item. -/
def ItemSlot (rowTy : RowType) (item : Projection × Nat) (s : Slot) : Prop :=
  ∃ ty, checkExpr rowTy (itemExpr item.1) = .ok ty ∧
    s = outputSlot (outputNameOf item.1 item.2) ty

/-- A projection has the type it was checked to have. -/
theorem project_sound {rel : Relation} {items : List Projection} {outs : List Slot}
    (hrel : RelConforms rowTy rel) (houts : List.Forall₂ (ItemSlot rowTy) items.zipIdx outs)
    (hag : ∀ item ∈ items, ExprAgrees rowTy (itemExpr item)) :
    Result.Holds ExecBenign (RelConforms ⟨outs⟩) (project fx rel items) := by
  obtain ⟨hshape, hrows⟩ := hrel
  have hitems : List.Forall₂ (fun item s => ∃ i, ItemSlot rowTy (item, i) s) items outs := by
    rw [← List.zipIdx_map_fst 0 items, List.forall₂_map_left_iff]
    exact houts.imp (fun _ _ h => ⟨_, h⟩)
  have hrow : ∀ row ∈ rel.rows, Result.Holds Benign (RowConforms outs)
      (projectRow fx items ⟨rowTy.slots.map Slot.column⟩ row) := by
    intro row hr
    apply mapM_conforms hitems
    intro item hi s hs
    obtain ⟨i, ty, hty, rfl⟩ := hs
    exact eval_sound fx (hrows row hr) _ hty (hag item hi)
  rw [project, hshape]
  apply (ofEval_sound (Result.Holds.mapM_forall hrow)).bind
  intro rows hconf
  refine ⟨?_, hconf⟩
  show Shape.mk _ = _
  rw [map_column houts]
  intro a s hs
  obtain ⟨ty, _, rfl⟩ := hs
  rfl

omit fx rowTy in
theorem mem_dedup {rows : List Row} : ∀ {seen : List Row} {row : Row},
    row ∈ dedup seen rows → row ∈ seen ∨ row ∈ rows := by
  induction rows with
  | nil =>
    intro seen row h
    exact .inl h
  | cons r rows ih =>
    intro seen row h
    rw [dedup] at h
    split at h
    · rcases ih h with h | h
      · exact .inl h
      · exact .inr (List.mem_cons_of_mem _ h)
    · rcases ih h with h | h
      · grind
      · exact .inr (List.mem_cons_of_mem _ h)

omit fx in
theorem distinct_conforms {rel : Relation} (hrel : RelConforms rowTy rel) :
    RelConforms rowTy (distinct rel) := by
  refine ⟨hrel.1, ?_⟩
  intro row hr
  rcases mem_dedup hr with hr | hr
  · cases hr
  · exact hrel.2 row hr

/-- A sort keeps the row type. -/
theorem sort_sound {rel : Relation} {keys : List SortKey} (hrel : RelConforms rowTy rel)
    (h : ∀ k ∈ keys, ∃ ty, checkExpr rowTy k.expr = .ok ty)
    (hag : ∀ k ∈ keys, ExprAgrees rowTy k.expr) :
    Result.Holds ExecBenign (RelConforms rowTy) (sort fx rel keys) := by
  obtain ⟨hshape, hrows⟩ := hrel
  rw [sort, hshape]
  have hkeyed : ∀ row ∈ rel.rows, Result.Holds Benign
      (fun kr : Row × Row => RowConforms rowTy.slots kr.2) (do
        let ks ← sortKeys fx keys ⟨rowTy.slots.map Slot.column⟩ row
        pure (ks, row)) := by
    intro row hr
    have hkeys : Result.Holds Benign (fun _ => True)
        (sortKeys fx keys ⟨rowTy.slots.map Slot.column⟩ row) := by
      apply (Result.Holds.mapM_forall (Q := fun _ => True) ?_).mono (fun _ _ => trivial)
      intro k hk
      obtain ⟨ty, hty⟩ := h k hk
      exact (eval_sound fx (hrows row hr) _ hty (hag k hk)).mono (fun _ _ => trivial)
    apply hkeys.bind
    intro ks _
    exact hrows row hr
  apply (ofEval_sound (Result.Holds.mapM_forall hkeyed)).bind
  intro keyed hconf
  cases hsorted : stableSort fx keys keyed with
  | error e =>
    rw [stableSort] at hsorted
    split at hsorted
    · cases hsorted
    · cases hsorted
      trivial
  | ok sorted =>
    refine ⟨rfl, ?_⟩
    intro row hr
    obtain ⟨kr, hkr, rfl⟩ := List.mem_map.1 hr
    exact hconf kr ((fx.sortBy.perm (stableSort_eq_ok.1 hsorted)).mem_iff.1 hkr)

omit fx in
theorem applyLimit_conforms {rel : Relation} (hrel : RelConforms rowTy rel) (limit : Option Nat)
    (offset : Nat) : RelConforms rowTy ⟨rel.shape, applyLimit rel.rows limit offset⟩ := by
  refine ⟨hrel.1, ?_⟩
  intro row hr
  apply hrel.2
  cases limit with
  | none => exact List.mem_of_mem_drop hr
  | some n => exact List.mem_of_mem_drop (List.mem_of_mem_take hr)

end

/-! ## Plans -/

/-- Every row a snapshot stores is one of its table's definition, which is the one the
schema has. -/
def SnapshotConforms (schema : SchemaView) (snap : CatSnapshot) : Prop :=
  ∀ table image, snap.image table = .ok image → schema table = .ok (some image.def_) ∧
    ∀ entry ∈ image.data, ∀ row, decodePadded image.def_ entry.2 = .ok row →
      List.Forall₂ (fun (col : ColumnDef) (v : Value) => v.kind = none ∨ v.kind = some col.kind)
        image.def_.columns row

/-- At every operator, no reference names a first and a last column of different kinds and
every `sum` is over numbers. Plans that agree are sound; one that does not may still be so, on rows
that never reach the difference. -/
def Agrees (schema : SchemaView) : Plan → Prop
  | .scan _ _ => True
  | .indexScan _ _ _ _ => True
  | .pkLookup _ _ _ => True
  | .filter input pred => Agrees schema input ∧
    ∀ row, checkPlan schema input = .ok row → ExprAgrees row pred
  | .join kind left right on => Agrees schema left ∧ Agrees schema right ∧
    ∀ l r, checkPlan schema left = .ok l → checkPlan schema right = .ok r →
      OnAgrees (l.concat (if kind = .left then r.madeNullable else r)) on
  | .aggregate input by_ aggs => Agrees schema input ∧
    ∀ row, checkPlan schema input = .ok row →
      (∀ e ∈ by_, ExprAgrees row e) ∧ ∀ a ∈ aggs, AggAgrees row a.2
  | .project input items => Agrees schema input ∧
    ∀ row, checkPlan schema input = .ok row → ∀ item ∈ items, ExprAgrees row (itemExpr item)
  | .distinct input => Agrees schema input
  | .sort input keys => Agrees schema input ∧
    ∀ row, checkPlan schema input = .ok row → ∀ key ∈ keys, ExprAgrees row key.expr
  | .limit input _ _ => Agrees schema input
  | .cursor input _ => Agrees schema input

/-! ### Access paths -/

/-- The rows a table's data tree decodes to. -/
def Stored (image : TableImage) (row : Row) : Prop :=
  ∃ entry ∈ image.data, decodePadded image.def_ entry.2 = .ok row

/-- Only rows of the table come back, whatever else may go wrong. -/
abbrev YieldsStored (image : TableImage) : CatResult (List Row) → Prop :=
  Result.Holds (fun _ => True) (fun rows => ∀ row ∈ rows, Stored image row)

theorem decodePadded_stored {image : TableImage} {entry : Bytes × Bytes}
    (he : entry ∈ image.data) :
    Result.Holds (fun _ => True) (Stored image) (decodePadded image.def_ entry.2) := by
  cases h : decodePadded image.def_ entry.2 with
  | ok row => exact ⟨entry, he, h⟩
  | error e => trivial

section

variable {snap : CatSnapshot} {table : String} {image : TableImage}
  (hi : snap.image table = .ok image)

include hi

theorem scan_stored : YieldsStored image (snap.scan table) := by
  rw [CatSnapshot.scan, hi, Result.ok_bind]
  exact Result.Holds.mapM_forall (fun e he => decodePadded_stored he)

omit hi in
/-- Rows fetched by key are stored rows. -/
theorem fetch_stored {pks : List Bytes} : YieldsStored image (CatSnapshot.fetch image pks) := by
  induction pks with
  | nil => exact fun row hr => by cases hr
  | cons pk pks ih =>
    rw [CatSnapshot.fetch]
    split
    · next hfind =>
      apply (decodePadded_stored (OrdMap.mem_of_find hfind)).bind
      intro row hrow
      apply ih.bind
      intro rows hrows r hr
      rcases List.mem_cons.1 hr with rfl | hr
      · exact hrow
      · exact hrows r hr
    · exact ih

/-- The candidates of an index are stored rows. -/
theorem indexCandidates_stored {index : String} {keyPrefix : List Value} :
    YieldsStored image (snap.indexCandidates table index keyPrefix) := by
  rw [CatSnapshot.indexCandidates, hi, Result.ok_bind]
  have htrue : ∀ {α : Type} {x : CatResult α},
      Result.Holds (fun _ => True) (fun _ => True) x := by
    intro α x
    cases x <;> trivial
  apply htrue.bind
  intro tree _
  apply htrue.bind
  intro bounds _
  exact fetch_stored

/-- A row looked up is a stored row. -/
theorem get_stored {key : List Value} :
    Result.Holds (fun _ => True) (fun row => ∀ r ∈ row.toList, Stored image r)
      (snap.get table key) := by
  rw [CatSnapshot.get, hi, Result.ok_bind]
  cases ofType (encodeKey key) with
  | error e => trivial
  | ok bytes =>
    rw [Result.ok_bind]
    split
    · next hfind =>
      apply (decodePadded_stored (OrdMap.mem_of_find hfind)).bind
      intro row hrow r hr
      rw [Option.toList_some, List.mem_singleton] at hr
      rw [hr]
      exact hrow
    · exact fun r hr => by cases hr

/-- A scan yields stored rows, whole or through an index. -/
theorem scanRows_stored {index : Option (String × List Value)} :
    YieldsStored image (scanRows snap image.def_ table index) := by
  cases index with
  | none => exact scan_stored hi
  | some probe =>
    obtain ⟨index, keyPrefix⟩ := probe
    rw [scanRows]
    split
    · exact indexCandidates_stored hi
    · exact scan_stored hi

end

theorem mem_retainPrefix {def_ : TableDef} {rows : List Row}
    {index : Option (String × List Value)} {row : Row} (h : row ∈ retainPrefix def_ rows index) :
    row ∈ rows := by
  unfold retainPrefix at h
  split at h
  · split at h
    · exact List.mem_of_mem_filter h
    · exact h
  · exact h

/-- The slots of a base table bind its columns and have the values of its rows. -/
theorem ofTable_columns (def_ : TableDef) (qualifier : String) :
    (RowType.ofTable def_ qualifier).slots.map Slot.column
      = def_.columns.map (fun col => ⟨some qualifier, col.name⟩) := by
  have hcols := List.zipIdx_map_fst 0 def_.columns
  conv_rhs => rw [← hcols]
  rw [RowType.ofTable, List.map_map, List.map_map]
  rfl

/-- A row whose cells are of their columns' kinds conforms to the type of the table. -/
theorem ofTable_conforms {def_ : TableDef} {qualifier : String} {row : Row}
    (h : List.Forall₂ (fun (col : ColumnDef) (v : Value) => v.kind = none ∨ v.kind = some col.kind)
      def_.columns row) :
    RowConforms (RowType.ofTable def_ qualifier).slots row := by
  rw [← List.zipIdx_map_fst 0 def_.columns, List.forall₂_map_left_iff] at h
  rw [RowConforms, RowType.ofTable, List.forall₂_map_left_iff]
  apply h.imp
  intro col v hv
  rcases hv with hv | hv
  · exact .inl hv
  · exact .inr (.inl hv)

section

variable {schema : SchemaView} {snap : CatSnapshot} (hsnap : SnapshotConforms schema snap)

include hsnap

/-- The definition the schema has for a table of the snapshot, and its stored rows. -/
theorem lookup_conforms {table : String} {def_ : TableDef} (qualifier : String)
    (hlook : lookup schema table = .ok def_) {image : TableImage}
    (hi : snap.image table = .ok image) :
    def_ = image.def_ ∧ ∀ row, Stored image row →
      RowConforms (RowType.ofTable def_ qualifier).slots row := by
  obtain ⟨hschema, hrows⟩ := hsnap table image hi
  rw [lookup, hschema] at hlook
  cases hlook
  refine ⟨rfl, ?_⟩
  intro row hrow
  obtain ⟨entry, he, hdec⟩ := hrow
  exact ofTable_conforms (hrows entry he row hdec)

/-- An access that yields stored rows has the type of its table. -/
theorem table_access_sound {table : String} {def_ : TableDef} (alias_ : Option String)
    (hlook : lookup schema table = .ok def_) (access : TableDef → ExecResult (List Row))
    (hacc : ∀ image, snap.image table = .ok image →
      Result.Holds ExecBenign (fun rows => ∀ row ∈ rows, Stored image row) (access image.def_)) :
    Result.Holds ExecBenign (RelConforms (.ofTable def_ (alias_.getD table))) (do
      let def_ ← ofCatalog (snap.table table)
      let rows ← access def_
      pure ⟨tableShape def_ (alias_.getD table), rows⟩) := by
  rw [CatSnapshot.table]
  cases hi : snap.image table with
  | error e => trivial
  | ok image =>
    obtain ⟨rfl, hconf⟩ := lookup_conforms hsnap (alias_.getD table) hlook hi
    show Result.Holds ExecBenign _ (access image.def_ >>= _)
    apply (hacc image hi).bind
    intro rows hrows
    refine ⟨?_, fun row hr => hconf row (hrows row hr)⟩
    show Shape.mk _ = _
    rw [ofTable_columns]

theorem scan_sound {table : String} {def_ : TableDef} (alias_ : Option String)
    (hlook : lookup schema table = .ok def_) (index : Option (String × List Value)) :
    Result.Holds ExecBenign (RelConforms (.ofTable def_ (alias_.getD table)))
      (scan snap table alias_ index) := by
  have h := table_access_sound hsnap alias_ hlook (fun d => do
    let rows ← ofCatalog (scanRows snap d table index)
    pure (retainPrefix d rows index)) ?_
  · simpa [scan, bind_assoc] using h
  · intro image hi
    apply (ofCatalog_sound (scanRows_stored hi)).bind
    intro rows hrows row hr
    exact hrows row (mem_retainPrefix hr)

theorem pkLookup_sound {table : String} {def_ : TableDef} (alias_ : Option String)
    (hlook : lookup schema table = .ok def_) (key : List Value) :
    Result.Holds ExecBenign (RelConforms (.ofTable def_ (alias_.getD table)))
      (pkLookup snap table alias_ key) := by
  have h := table_access_sound hsnap alias_ hlook (fun _ => do
    let row ← ofCatalog (snap.get table key)
    pure row.toList) ?_
  · simpa [pkLookup, bind_assoc] using h
  · intro image hi
    apply (ofCatalog_sound (get_stored hi)).bind
    intro row hrow
    exact hrow

omit hsnap in
theorem madeNullable_columns (row : RowType) :
    row.madeNullable.slots.map Slot.column = row.slots.map Slot.column := by
  rw [RowType.madeNullable, List.map_map]
  rfl

omit hsnap in
theorem madeNullable_conforms {rowTy : RowType} {row : Row} (h : RowConforms rowTy.slots row) :
    RowConforms rowTy.madeNullable.slots row := by
  rw [RowConforms, RowType.madeNullable, List.forall₂_map_left_iff]
  exact h

omit hsnap in
/-- The right side of a join conforms to the slots the validator joins with. -/
theorem joinSide_conforms {kind : JoinKind} {rowTy : RowType} {rel : Relation}
    (h : RelConforms rowTy rel) :
    RelConforms (if kind = .left then rowTy.madeNullable else rowTy) rel := by
  split
  · refine ⟨?_, fun row hr => madeNullable_conforms (h.2 row hr)⟩
    rw [madeNullable_columns]
    exact h.1
  · exact h

omit hsnap in
/-- A join has the type it was checked to have. -/
theorem join_sound (fx : Intrinsics) {kind : JoinKind} {on : Option Expr} {lTy rTy : RowType}
    {l r : Relation} (hl : RelConforms lTy l) (hr : RelConforms rTy r)
    (hon : checkOn (lTy.concat rTy) on = .ok ()) (hag : OnAgrees (lTy.concat rTy) on) :
    Result.Holds ExecBenign (RelConforms (lTy.concat rTy)) (join fx kind l r on) := by
  have hshape : l.shape.concat r.shape = ⟨(lTy.concat rTy).slots.map Slot.column⟩ := by
    rw [hl.1, hr.1, RowType.concat, List.map_append]
    rfl
  have hwidth : r.shape.cols.length = rTy.slots.length := by
    rw [hr.1, List.length_map]
  rw [join, hshape, hwidth]
  apply (joinRows_sound fx rfl hon hag hl.2 hr.2).bind
  intro rows hrows
  exact ⟨rfl, hrows⟩

omit hsnap in
/-- A traversal for its checks alone succeeds only when every check does. -/
theorem forM_eq_ok {α : Type} {f : α → ValidateResult Unit} {l : List α}
    (h : l.forM f = .ok ()) : ∀ a ∈ l, f a = .ok () := by
  induction l with
  | nil =>
    intro a ha
    cases ha
  | cons b l ih =>
    obtain ⟨_, hb, h⟩ := Result.bind_eq_ok.1 h
    intro a ha
    rcases List.mem_cons.1 ha with rfl | ha
    · exact hb
    · exact ih h a ha

/-- A validated plan runs to a relation of its row type or fails on the data. -/
theorem execute_sound (fx : Intrinsics) {plan : Plan} :
    ∀ {rowTy : RowType}, checkPlan schema plan = .ok rowTy → Agrees schema plan →
      Result.Holds ExecBenign (RelConforms rowTy) (execute fx snap plan) := by
  induction plan with
  | scan table alias_ =>
    -- the reads: a row of a table conforms to the slots of its definition
    intro rowTy h _
    obtain ⟨def_, hlook, h⟩ := Result.bind_eq_ok.1 h
    cases h
    exact scan_sound hsnap alias_ hlook none
  | indexScan table alias_ index keyPrefix =>
    intro rowTy h _
    obtain ⟨def_, hlook, h⟩ := Result.bind_eq_ok.1 h
    cases h
    exact scan_sound hsnap alias_ hlook (some (index, keyPrefix))
  | pkLookup table alias_ key =>
    intro rowTy h _
    obtain ⟨def_, hlook, h⟩ := Result.bind_eq_ok.1 h
    cases h
    exact pkLookup_sound hsnap alias_ hlook key
  | filter input pred ih =>
    intro rowTy h hag
    obtain ⟨row, hrow, h⟩ := Result.bind_eq_ok.1 h
    obtain ⟨_, hpred, h⟩ := Result.bind_eq_ok.1 h
    cases h
    rw [execute]
    apply (ih hrow hag.1).bind
    intro rel hrel
    rw [hrel.1]
    -- the rows left are among those of the input
    apply (filterRows_sound fx hrel.2 hpred (hag.2 _ hrow)).bind
    intro rows hrows
    exact ⟨rfl, hrows⟩
  | join kind left right on ihl ihr =>
    intro rowTy h hag
    obtain ⟨lTy, hlTy, h⟩ := Result.bind_eq_ok.1 h
    obtain ⟨rTy, hrTy, h⟩ := Result.bind_eq_ok.1 h
    obtain ⟨_, hon, h⟩ := Result.bind_eq_ok.1 h
    cases h
    rw [execute]
    apply (ihl hlTy hag.1).bind
    intro l hl
    apply (ihr hrTy hag.2.1).bind
    intro r hr
    -- the condition is checked over the columns of both sides
    exact join_sound fx hl (joinSide_conforms hr) hon (hag.2.2 lTy rTy hlTy hrTy)
  | aggregate input by_ aggs ih =>
    intro rowTy h hag
    obtain ⟨row, hrow, h⟩ := Result.bind_eq_ok.1 h
    obtain ⟨_, hby, h⟩ := Result.bind_eq_ok.1 h
    obtain ⟨outs, houts, h⟩ := Result.bind_eq_ok.1 h
    cases h
    obtain ⟨hagb, haga⟩ := hag.2 row hrow
    -- each aggregate has the slot the checker gave it
    have hslots : List.Forall₂ (AggSlot row) aggs outs := by
      apply (Result.mapM_eq_ok.1 houts).imp
      intro a s hs
      obtain ⟨ty, hty, hs⟩ := Result.bind_eq_ok.1 hs
      cases hs
      exact ⟨ty, hty, rfl⟩
    rw [execute]
    apply (ih hrow hag.1).bind
    intro rel hrel
    exact aggregate_sound fx hrel (fun e he => checkKey_eq_ok (forM_eq_ok hby e he)) hagb
      hslots haga
  | project input items ih =>
    intro rowTy h hag
    obtain ⟨row, hrow, h⟩ := Result.bind_eq_ok.1 h
    obtain ⟨outs, houts, h⟩ := Result.bind_eq_ok.1 h
    cases h
    -- each item has the slot the checker gave it
    have hslots : List.Forall₂ (ItemSlot row) items.zipIdx outs := by
      apply (Result.mapM_eq_ok.1 houts).imp
      intro item s hs
      obtain ⟨ty, hty, hs⟩ := Result.bind_eq_ok.1 hs
      cases hs
      exact ⟨ty, hty, rfl⟩
    rw [execute]
    apply (ih hrow hag.1).bind
    intro rel hrel
    exact project_sound fx hrel hslots (hag.2 row hrow)
  | distinct input ih =>
    intro rowTy h hag
    rw [execute]
    apply (ih h hag).bind
    intro rel hrel
    exact distinct_conforms hrel
  | sort input keys ih =>
    intro rowTy h hag
    obtain ⟨row, hrow, h⟩ := Result.bind_eq_ok.1 h
    obtain ⟨_, hkeys, h⟩ := Result.bind_eq_ok.1 h
    cases h
    rw [execute]
    apply (ih hrow hag.1).bind
    intro rel hrel
    exact sort_sound fx hrel (fun k hk => checkKey_eq_ok (forM_eq_ok hkeys k hk))
      (hag.2 _ hrow)
  | limit input limit offset ih =>
    intro rowTy h hag
    rw [execute]
    apply (ih h hag).bind
    intro rel hrel
    exact applyLimit_conforms hrel limit offset
  | cursor input token =>
    -- a cursor is not executed by this path
    intro rowTy _ _
    trivial

end

/-- A select the validator accepts fails at execution, if it does, on the data, as long as
the two sides read its references and sums alike. -/
theorem validated_select_progress (fx : Intrinsics) (schema : SchemaView) (snap : CatSnapshot)
    (select : Select) (plan : Plan) (output : List OutputColumn)
    (hvalid : validateSelect select schema = .ok output) (hplan : lower select = .ok plan)
    (hag : Agrees schema plan) (hsnap : SnapshotConforms schema snap) :
    ∀ e, execute fx snap plan = .error (.eval e) → Benign e := by
  intro e he
  rw [validateSelect, hplan] at hvalid
  obtain ⟨plan', hplan', hvalid⟩ := Result.bind_eq_ok.1 hvalid
  cases hplan'
  obtain ⟨rowTy, hrow, _⟩ := Result.bind_eq_ok.1 hvalid
  have hsound := execute_sound hsnap fx hrow hag
  rw [he] at hsound
  exact hsound

/-- A snapshot conforms to its own schema as soon as its tables' rows conform. -/
theorem schemaOf_conforms {snap : CatSnapshot}
    (h : ∀ e ∈ snap.tables, ∀ entry ∈ e.2.data, ∀ row,
      decodePadded e.2.def_ entry.2 = .ok row →
        List.Forall₂ (fun (col : ColumnDef) (v : Value) => v.kind = none ∨ v.kind = some col.kind)
          e.2.def_.columns row) :
    SnapshotConforms (schemaOf snap) snap := by
  intro table image hi
  constructor
  · rw [schemaOf, CatSnapshot.table, hi]
    rfl
  · rw [CatSnapshot.image] at hi
    cases hl : snap.tables.lookup table with
    | none =>
      rw [hl] at hi
      cases hi
    | some image' =>
      rw [hl] at hi
      cases hi
      obtain ⟨pre, post, htables, _⟩ := List.lookup_eq_some_iff.1 hl
      have hmem : (table, image) ∈ snap.tables := by simp [htables]
      exact h _ hmem

/-- Two tables whose columns `tag` are of different kinds, with one row each. -/
def tagSnapshot : CatSnapshot :=
  ⟨[("users",
    { def_ := ⟨"users", [ColumnDef.new "id" .i64, ColumnDef.new "tag" .text], ["id"], [], [], []⟩
      data := [([3, 128, 0, 0, 0, 0, 0, 0, 1],
        [2, 0, 2, 1, 0, 0, 0, 0, 0, 0, 0, 4, 3, 0, 0, 0, 110, 101, 119])]
      indexes := [] }),
   ("orders",
    { def_ := ⟨"orders", [ColumnDef.new "id" .i64, ColumnDef.new "tag" .i64], ["id"], [], [], []⟩
      data := [([3, 128, 0, 0, 0, 0, 0, 0, 1],
        [2, 0, 2, 1, 0, 0, 0, 0, 0, 0, 0, 2, 5, 0, 0, 0, 0, 0, 0, 0])]
      indexes := [] })]⟩

theorem tagSnapshot_conforms : SnapshotConforms (schemaOf tagSnapshot) tagSnapshot := by
  apply schemaOf_conforms
  intro e he entry hentry row hrow
  rw [tagSnapshot, List.mem_cons, List.mem_singleton] at he
  rcases he with rfl | rfl
  · rw [List.mem_singleton.1 hentry] at hrow
    have hdec : decodePadded
        ⟨"users", [ColumnDef.new "id" .i64, ColumnDef.new "tag" .text], ["id"], [], [], []⟩
        [2, 0, 2, 1, 0, 0, 0, 0, 0, 0, 0, 4, 3, 0, 0, 0, 110, 101, 119]
        = .ok [.i64 1, .text "new"] := by decide +kernel
    rw [hdec] at hrow
    cases hrow
    exact .cons (.inr rfl) (.cons (.inr rfl) .nil)
  · rw [List.mem_singleton.1 hentry] at hrow
    have hdec : decodePadded
        ⟨"orders", [ColumnDef.new "id" .i64, ColumnDef.new "tag" .i64], ["id"], [], [], []⟩
        [2, 0, 2, 1, 0, 0, 0, 0, 0, 0, 0, 2, 5, 0, 0, 0, 0, 0, 0, 0]
        = .ok [.i64 1, .i64 5] := by decide +kernel
    rw [hdec] at hrow
    cases hrow
    exact .cons (.inr rfl) (.cons (.inr rfl) .nil)

/-- Both tables under one alias, filtered by arithmetic on the column they share. -/
def sharedAliasSelect : Select :=
  .pipeline [.scan ⟨"users", some "x"⟩, .join ⟨.cross, ⟨"orders", some "x"⟩, none⟩,
    .«match» (.cmp .eq (.arith .add (.column (some "x") "tag") (.literal (.i64 1)))
      (.literal (.i64 6)))]

/-- The plan of `sharedAliasSelect`. -/
def sharedAliasPlan : Plan :=
  .filter (.join .cross (.scan "users" (some "x")) (.scan "orders" (some "x")) none)
    (.cmp .eq (.arith .add (.column (some "x") "tag") (.literal (.i64 1))) (.literal (.i64 6)))

theorem shared_alias_goes_wrong :
    (∃ output, validateSelect sharedAliasSelect (schemaOf tagSnapshot) = .ok output) ∧
      lower sharedAliasSelect = .ok sharedAliasPlan ∧
      SnapshotConforms (schemaOf tagSnapshot) tagSnapshot ∧
      execute integerIntrinsics tagSnapshot sharedAliasPlan
        = .error (.eval (.typeError "add")) := by
  refine ⟨⟨[⟨"id", some .i64, false⟩, ⟨"tag", some .text, true⟩, ⟨"id", some .i64, false⟩,
    ⟨"tag", some .i64, true⟩], by decide +kernel⟩, rfl, tagSnapshot_conforms, by decide +kernel⟩

/-- A `sum` over texts is typed as a text and computed as an integer. -/
def textSumPlan : Plan :=
  .filter (.aggregate (.scan "users" none) [] [("s", .agg .sum (.column none "tag"))])
    (.like (.column none "s") "n%" false)

example : (checkPlan (schemaOf tagSnapshot) textSumPlan).isOk = true := by decide +kernel

example : execute integerIntrinsics tagSnapshot textSumPlan =
    .error (.eval (.typeError "like")) := by
  decide +kernel

/-- A filter whose addition overflows on the one order. -/
def greatestTagSelect : Select :=
  .pipeline [.scan ⟨"orders", none⟩,
    .«match» (.cmp .eq (.arith .add (.column none "tag") (.literal (.i64 9223372036854775807)))
      (.literal (.i64 0)))]

def greatestTagPlan : Plan :=
  .filter (.scan "orders" none)
    (.cmp .eq (.arith .add (.column none "tag") (.literal (.i64 9223372036854775807)))
      (.literal (.i64 0)))

theorem validated_select_progress_overflow :
    execute integerIntrinsics tagSnapshot greatestTagPlan = .error (.eval (.overflow "add")) ∧
      Benign (.overflow "add") := by
  have hfail : execute integerIntrinsics tagSnapshot greatestTagPlan
      = .error (.eval (.overflow "add")) := by decide +kernel
  have hag : Agrees (schemaOf tagSnapshot) greatestTagPlan := by
    refine ⟨trivial, ?_⟩
    intro row hrow
    have hval : checkPlan (schemaOf tagSnapshot) (.scan "orders" none)
        = .ok ⟨[⟨some "orders", "id", .of .i64 false⟩, ⟨some "orders", "tag", .of .i64 true⟩]⟩ := by
      decide +kernel
    rw [hval] at hrow
    cases hrow
    intro ref href
    simp only [columnRefs, List.mem_append, List.mem_singleton, List.not_mem_nil,
      or_false] at href
    subst href
    rfl
  refine ⟨hfail, ?_⟩
  exact validated_select_progress integerIntrinsics (schemaOf tagSnapshot) tagSnapshot
    greatestTagSelect greatestTagPlan [⟨"id", some .i64, false⟩, ⟨"tag", some .i64, true⟩]
    (by decide +kernel) rfl hag tagSnapshot_conforms _ hfail

end Edb.Query
