import Edb.Query.Meaning
import Edb.Query.Plan

/-!
# Conjunctions

The planner takes a predicate apart into conjuncts and puts some of them back together. A
conjunction is evaluated without a short cut, so it has a value exactly when every conjunct has one,
and it is true exactly when every conjunct is. A conjunct reads the columns it refers to and no
others (`eval_congr`), which is what lets it move below a join.
-/

namespace Edb.Query

open Edb.Lib Edb.Types Edb.Proto Edb.Catalog

section

variable {fx : Intrinsics} {shape : Shape} {row : Row}

/-! ## Truth -/

/-- A conjunction is true when both sides are. -/
theorem and3_eq_true {a b : Value} : and3 a b = .bool true ↔ a = .bool true ∧ b = .bool true := by
  unfold and3
  split
  · simp
  · simp
  · simp
  · next h =>
    constructor
    · intro h
      cases h
    · rintro ⟨ha, hb⟩
      exact (h ha hb).elim

theorem evalAnd_eq_ok {items : List Expr} {acc v : Value} :
    evalAnd fx row shape acc items = .ok v ↔
      ∃ vs, items.mapM (eval fx row shape) = .ok vs ∧ v = vs.foldl and3 acc := by
  induction items generalizing acc with
  | nil => simp [evalAnd, eq_comm]
  | cons item items ih =>
    rw [evalAnd, List.mapM_cons, Result.bind_eq_ok]
    constructor
    · rintro ⟨w, hw, h⟩
      obtain ⟨vs, hvs, rfl⟩ := ih.1 h
      exact ⟨w :: vs, by rw [hw, hvs]; rfl, rfl⟩
    · rintro ⟨vs, hvs, rfl⟩
      obtain ⟨w, hw, h⟩ := Result.bind_eq_ok.1 hvs
      obtain ⟨ws, hws, h⟩ := Result.bind_eq_ok.1 h
      cases h
      exact ⟨w, hw, ih.2 ⟨ws, hws, rfl⟩⟩

theorem foldl_and3_eq_true {vs : List Value} {acc : Value} :
    vs.foldl and3 acc = .bool true ↔ acc = .bool true ∧ ∀ v ∈ vs, v = .bool true := by
  induction vs generalizing acc with
  | nil => simp
  | cons v vs ih => rw [List.foldl_cons, ih, and3_eq_true, List.forall_mem_cons, and_assoc]

/-- A conjunction is decided exactly when all its items are. -/
theorem decided_and {items : List Expr} :
    Decided fx shape row (.and items) ↔ ∀ item ∈ items, Decided fx shape row item := by
  constructor
  · rintro ⟨v, hv⟩ item hitem
    rw [eval] at hv
    obtain ⟨vs, hvs, -⟩ := evalAnd_eq_ok.1 hv
    obtain ⟨w, -, hw⟩ := Result.exists_of_mapM hvs hitem
    exact ⟨w, hw⟩
  · intro h
    obtain ⟨vs, hvs⟩ := Result.mapM_total h
    exact ⟨_, by rw [eval]; exact evalAnd_eq_ok.2 ⟨vs, hvs, rfl⟩⟩

/-- A conjunction is true when all of its items are. -/
theorem holds_and {items : List Expr} :
    holds fx shape (.and items) row = items.all (fun item => holds fx shape item row) := by
  rw [Bool.eq_iff_iff, holds_iff, List.all_eq_true]
  constructor
  · intro h item hitem
    rw [eval] at h
    obtain ⟨vs, hvs, heq⟩ := evalAnd_eq_ok.1 h
    obtain ⟨w, hw, hitem⟩ := Result.exists_of_mapM hvs hitem
    rw [holds_iff, hitem, (foldl_and3_eq_true.1 heq.symm).2 w hw]
  · intro h
    obtain ⟨vs, hvs⟩ := Result.mapM_total (fun item hitem => ⟨_, holds_iff.1 (h item hitem)⟩)
    rw [eval, evalAnd_eq_ok]
    refine ⟨vs, hvs, (foldl_and3_eq_true.2 ⟨rfl, fun v hv => ?_⟩).symm⟩
    obtain ⟨item, hitem, hv⟩ := Result.mem_of_mapM hvs hv
    exact Except.ok.inj (hv.symm.trans (holds_iff.1 (h item hitem)))

/-! ## Conjuncts -/

/-- All of some conjuncts are true of a row. -/
abbrev allHold (fx : Intrinsics) (shape : Shape) (conjuncts : List Expr) (row : Row) : Bool :=
  conjuncts.all (fun c => holds fx shape c row)

/-- A predicate holds exactly when all its conjuncts do. -/
theorem holds_flattenAnd (pred : Expr) :
    holds fx shape pred row = allHold fx shape (flattenAnd pred) row := by
  apply flattenAnd.induct
    (fun pred => holds fx shape pred row = allHold fx shape (flattenAnd pred) row)
    (fun items => allHold fx shape items row = allHold fx shape (flattenAll items) row)
  · intro items ih
    rw [holds_and, flattenAnd]
    exact ih
  · intro other hother
    rw [flattenAnd, allHold, List.all_cons, List.all_nil, Bool.and_true]
    exact hother
  · rfl
  · intro item items ih ihs
    rw [flattenAll, allHold, allHold, List.all_append, List.all_cons, ih]
    exact congrArg _ ihs

/-- A predicate is decided exactly when all its conjuncts are. -/
theorem decided_flattenAnd (pred : Expr) :
    Decided fx shape row pred ↔ ∀ c ∈ flattenAnd pred, Decided fx shape row c := by
  apply flattenAnd.induct
    (fun pred => Decided fx shape row pred ↔ ∀ c ∈ flattenAnd pred, Decided fx shape row c)
    (fun items => (∀ item ∈ items, Decided fx shape row item) ↔
      ∀ c ∈ flattenAll items, Decided fx shape row c)
  · intro items ih
    rw [decided_and, flattenAnd, ih]
  · intro other hother
    rw [flattenAnd, List.forall_mem_singleton]
    exact hother
  · exact Iff.rfl
  · intro item items ih ihs
    rw [flattenAll, List.forall_mem_append, List.forall_mem_cons, ih, ihs]

theorem holds_andOf (conjuncts : List Expr) :
    holds fx shape (andOf conjuncts) row = allHold fx shape conjuncts row := by
  unfold andOf
  split
  · rw [allHold, List.all_cons, List.all_nil, Bool.and_true]
  · exact holds_and

theorem decided_andOf (conjuncts : List Expr) :
    Decided fx shape row (andOf conjuncts) ↔ ∀ c ∈ conjuncts, Decided fx shape row c := by
  unfold andOf
  split
  · rw [List.forall_mem_singleton]
  · exact decided_and

/-! ## Filters of conjuncts -/

variable {snap : CatSnapshot}

/-- The filter put around a plan keeps the rows that meet the conjuncts, if there are any. -/
theorem meaning_wrapFilter (input : Plan) (conjuncts : List Expr) :
    meaning fx snap (wrapFilter input conjuncts) = ⟨(meaning fx snap input).shape,
      (meaning fx snap input).rows.filter
        (allHold fx (meaning fx snap input).shape conjuncts)⟩ := by
  rw [wrapFilter]
  split
  · next h =>
    rw [List.isEmpty_iff.1 h]
    show _ = Relation.mk _ (List.filter (fun _ => true) _)
    rw [List.filter_true]
  · rw [meaning]
    exact congrArg _ (List.filter_congr (fun row _ => holds_andOf conjuncts))

theorem readable_wrapFilter {input : Plan} {conjuncts : List Expr} :
    Readable fx snap (wrapFilter input conjuncts) ↔ Readable fx snap input := by
  rw [wrapFilter]
  split <;> rfl

/-- A filter whose conjuncts have values returns. -/
theorem execute_wrapFilter {input : Plan} {conjuncts : List Expr} {rel : Relation}
    (h : execute fx snap input = .ok rel)
    (hdec : ∀ row ∈ rel.rows, ∀ c ∈ conjuncts, Decided fx rel.shape row c) :
    execute fx snap (wrapFilter input conjuncts) =
      .ok ⟨rel.shape, rel.rows.filter (allHold fx rel.shape conjuncts)⟩ := by
  rw [wrapFilter]
  split
  · next hnil =>
    rw [h, List.isEmpty_iff.1 hnil]
    show Except.ok rel = .ok ⟨_, List.filter (fun _ => true) _⟩
    rw [List.filter_true]
  · refine Result.bind_eq_ok.2 ⟨rel, h, Result.bind_eq_ok.2 ⟨_, (filterRows_eq_ok fx).2
      ⟨fun row hrow => (decided_andOf conjuncts).2 (hdec row hrow), rfl⟩, ?_⟩⟩
    have hsame : rel.rows.filter (holds fx rel.shape (andOf conjuncts)) =
        rel.rows.filter (allHold fx rel.shape conjuncts) :=
      List.filter_congr (fun row _ => holds_andOf conjuncts)
    rw [hsame]
    rfl

/-! ## Consumed conjuncts -/

/-- The equalities found are the conjuncts that equate a column with a value. -/
theorem mem_equalities {conjuncts : List Expr} {qualifier : String} {e : Equality} :
    e ∈ equalities conjuncts qualifier ↔ ∃ c, conjuncts[e.conjunct]? = some c ∧
      equalityOn c qualifier = some (e.column, e.value) := by
  obtain ⟨column, value, i⟩ := e
  rw [equalities, List.mem_filterMap]
  constructor
  · rintro ⟨⟨c, j⟩, hmem, h⟩
    obtain ⟨⟨name, v⟩, heq, h⟩ := Option.map_eq_some_iff.1 h
    cases h
    exact ⟨c, List.mem_zipIdx_iff_getElem?.1 hmem, heq⟩
  · rintro ⟨c, hc, heq⟩
    refine ⟨(c, i), List.mem_zipIdx_iff_getElem?.2 hc, ?_⟩
    show (equalityOn c qualifier).map _ = _
    rw [heq]
    rfl

/-- What is left to check are the conjuncts that the access did not consume. -/
theorem mem_residual {conjuncts : List Expr} {consumed : List Equality} {c : Expr} :
    c ∈ residual conjuncts consumed ↔
      ∃ i, conjuncts[i]? = some c ∧ ∀ e ∈ consumed, e.conjunct ≠ i := by
  rw [residual, List.mem_map]
  constructor
  · rintro ⟨⟨c', i⟩, hmem, rfl⟩
    obtain ⟨hmem, hnot⟩ := List.mem_filter.1 hmem
    refine ⟨i, List.mem_zipIdx_iff_getElem?.1 hmem, fun e he heq => ?_⟩
    have : i ∈ consumed.map Equality.conjunct := heq ▸ List.mem_map_of_mem he
    simp [this] at hnot
  · rintro ⟨i, hc, hnot⟩
    refine ⟨(c, i), List.mem_filter.2 ⟨List.mem_zipIdx_iff_getElem?.2 hc, ?_⟩, rfl⟩
    simpa using hnot

/-- The conjuncts are true when the consumed ones and the others are. -/
theorem allHold_residual (conjuncts : List Expr) (consumed : List Equality) :
    allHold fx shape conjuncts row = (allHold fx shape (residual conjuncts consumed) row &&
      consumed.all (fun e => conjuncts[e.conjunct]?.all (fun c => holds fx shape c row))) := by
  rw [Bool.eq_iff_iff, Bool.and_eq_true, List.all_eq_true, List.all_eq_true, List.all_eq_true]
  constructor
  · intro h
    refine ⟨fun c hc => ?_, fun e _ => ?_⟩
    · obtain ⟨i, hi, -⟩ := mem_residual.1 hc
      exact h c (List.mem_of_getElem? hi)
    · rw [Option.all_eq_true]
      exact fun c hc => h c (List.mem_of_getElem? hc)
  · rintro ⟨hres, hcons⟩ c hc
    obtain ⟨i, hi⟩ := List.getElem?_of_mem hc
    by_cases hmem : ∃ e ∈ consumed, e.conjunct = i
    · obtain ⟨e, he, rfl⟩ := hmem
      exact (Option.all_eq_true _ _).1 (hcons e he) c hi
    · exact hres c (mem_residual.2 ⟨i, hi, fun e he heq => hmem ⟨e, he, heq⟩⟩)

end

/-! ## Columns -/

section

variable {fx : Intrinsics} {shape shape' : Shape} {row row' : Row}

/-- Two rows have one value for every reference. -/
abbrev ReadAlike (shape shape' : Shape) (row row' : Row) (refs : List (Option String × String)) :
    Prop :=
  ∀ ref ∈ refs, (shape.resolve ref.1 ref.2).map (fun i => row.getD i .null) =
    (shape'.resolve ref.1 ref.2).map (fun i => row'.getD i .null)

theorem ReadAlike.append {refs more : List (Option String × String)}
    (h : ReadAlike shape shape' row row' (refs ++ more)) :
    ReadAlike shape shape' row row' refs ∧ ReadAlike shape shape' row row' more :=
  List.forall_mem_append.1 h

mutual

/-- **Evaluation reads the referenced columns only.** -/
theorem eval_congr : (e : Expr) → ReadAlike shape shape' row row' (columnRefs e) →
    eval fx row shape e = eval fx row' shape' e
  | .column table column, h => by
    have h := h (table, column) (List.mem_singleton_self _)
    rw [eval, eval]
    -- both shapes resolve the reference, to one and the same value, or neither does
    cases hr : shape.resolve table column with
    | none =>
      cases hr' : shape'.resolve table column with
      | none => rfl
      | some j =>
        rw [hr, hr'] at h
        cases h
    | some i =>
      cases hr' : shape'.resolve table column with
      | none =>
        rw [hr, hr'] at h
        cases h
      | some j =>
        rw [hr, hr'] at h
        exact congrArg Except.ok (Option.some.inj h)
  | .literal v, _ => by rw [eval, eval]
  | .cmp op lhs rhs, h => by
    have h := h.append
    rw [eval, eval, eval_congr lhs h.1, eval_congr rhs h.2]
  | .arith op lhs rhs, h => by
    have h := h.append
    rw [eval, eval, eval_congr lhs h.1, eval_congr rhs h.2]
  | .nullIf lhs rhs, h => by
    have h := h.append
    rw [eval, eval, eval_congr lhs h.1, eval_congr rhs h.2]
  | .and items, h => by rw [eval, eval, evalAnd_congr items h]
  | .or items, h => by rw [eval, eval, evalOr_congr items h]
  | .coalesce items, h => by rw [eval, eval, evalCoalesce_congr items h]
  | .not inner, h => by rw [eval, eval, eval_congr inner h]
  | .isNull inner, h => by rw [eval, eval, eval_congr inner h]
  | .isNotNull inner, h => by rw [eval, eval, eval_congr inner h]
  | .agg _ _, _ => by rw [eval, eval]
  | .cast inner _, h => by rw [eval, eval, eval_congr inner h]
  | .like inner _ _, h => by rw [eval, eval, eval_congr inner h]
  | .between inner lo hi, h => by
    have h := h.append
    have hb := h.1.append
    rw [eval, eval, eval_congr inner hb.1, eval_congr lo hb.2, eval_congr hi h.2]
  | .inList inner list, h => by
    have h := h.append
    rw [eval, eval, eval_congr inner h.1]
    refine congrArg _ (funext (fun v => ?_))
    rw [evalIn_congr list h.2]

theorem evalAnd_congr : (items : List Expr) →
    ReadAlike shape shape' row row' (columnRefsAll items) → ∀ {acc : Value},
    evalAnd fx row shape acc items = evalAnd fx row' shape' acc items
  | [], _, acc => by rw [evalAnd, evalAnd]
  | item :: items, h, acc => by
    have h := h.append
    rw [evalAnd, evalAnd, eval_congr item h.1]
    refine congrArg _ (funext (fun v => ?_))
    rw [evalAnd_congr items h.2]

theorem evalOr_congr : (items : List Expr) →
    ReadAlike shape shape' row row' (columnRefsAll items) → ∀ {acc : Value},
    evalOr fx row shape acc items = evalOr fx row' shape' acc items
  | [], _, acc => by rw [evalOr, evalOr]
  | item :: items, h, acc => by
    have h := h.append
    rw [evalOr, evalOr, eval_congr item h.1]
    refine congrArg _ (funext (fun v => ?_))
    rw [evalOr_congr items h.2]

theorem evalIn_congr : (items : List Expr) →
    ReadAlike shape shape' row row' (columnRefsAll items) → ∀ {v : Value} {sawNull : Bool},
    evalIn fx row shape v sawNull items = evalIn fx row' shape' v sawNull items
  | [], _, v, sawNull => by rw [evalIn, evalIn]
  | item :: items, h, v, sawNull => by
    have h := h.append
    rw [evalIn, evalIn, eval_congr item h.1]
    refine congrArg _ (funext (fun w => ?_))
    rw [evalIn_congr items h.2, evalIn_congr items h.2]

theorem evalCoalesce_congr : (items : List Expr) →
    ReadAlike shape shape' row row' (columnRefsAll items) →
    evalCoalesce fx row shape items = evalCoalesce fx row' shape' items
  | [], _ => by rw [evalCoalesce, evalCoalesce]
  | item :: items, h => by
    have h := h.append
    rw [evalCoalesce, evalCoalesce, eval_congr item h.1, evalCoalesce_congr items h.2]

end

/-! ## The sides of a join -/

section Sides

variable {left right : Shape} {lrow rrow : Row} {ref : Option String × String}

theorem resolve_concat (left right : Shape) (ref : Option String × String) :
    (left.concat right).resolve ref.1 ref.2 = (left.resolve ref.1 ref.2).or
      ((right.resolve ref.1 ref.2).map (· + left.cols.length)) :=
  List.findIdx?_append

theorem resolvable_iff {shape : Shape} :
    resolvable shape.cols ref = true ↔ (shape.resolve ref.1 ref.2).isSome = true := by
  rw [resolvable, Shape.resolve, List.findIdx?_isSome]

/-- A conjunct of the left side has on a left row the value it has on the combined one. -/
theorem readAlike_left (hlen : lrow.length = left.cols.length)
    (h : resolvable left.cols ref = true) (rrow : Row) :
    ((left.concat right).resolve ref.1 ref.2).map (fun i => (lrow ++ rrow).getD i .null) =
      (left.resolve ref.1 ref.2).map (fun i => lrow.getD i .null) := by
  rw [resolvable_iff, Option.isSome_iff_exists] at h
  obtain ⟨i, hi⟩ := h
  have hlt : i < lrow.length := by
    rw [hlen]
    exact (List.findIdx?_eq_some_iff_getElem.1 hi).1
  rw [resolve_concat, hi, Option.some_or, Option.map_some, Option.map_some,
    List.getD_eq_getElem?_getD, List.getElem?_append_left hlt, ← List.getD_eq_getElem?_getD]

/-- A reference the left side does not have is one to the right row. -/
theorem readAlike_right (hlen : lrow.length = left.cols.length)
    (h : resolvable left.cols ref = false) (rrow : Row) :
    ((left.concat right).resolve ref.1 ref.2).map (fun i => (lrow ++ rrow).getD i .null) =
      (right.resolve ref.1 ref.2).map (fun i => rrow.getD i .null) := by
  have hnone : left.resolve ref.1 ref.2 = none := by
    rw [← Option.not_isSome_iff_eq_none, ← resolvable_iff, h]
    exact Bool.false_ne_true
  rw [resolve_concat, hnone, Option.none_or, Option.map_map]
  refine congrArg (fun f => Option.map f _) (funext (fun i => ?_))
  show (lrow ++ rrow).getD (i + left.cols.length) .null = _
  rw [← hlen, List.getD_eq_getElem?_getD, List.getElem?_append_right (Nat.le_add_left _ _),
    Nat.add_sub_cancel, ← List.getD_eq_getElem?_getD]

end Sides

end

end Edb.Query
