import Edb.Query.Planner
import Edb.Query.Walk

/-!
# Requests that carry the token

A select is sent, and again with the token of each answer while there is one. The offset is skipped
on every page, not only on the first, and the keys of a sort are found only directly below the
limit.

* **What is delivered** (`token_protocol_complete_iff`): the rows of the reference result from the
  offset on, each once and in order, exactly when the first page holds them all, or the sort is
  directly below the limit, there is no offset and the last row of each page has a token.
-/

namespace Edb.Query

open Edb.Types Edb.Proto Edb.Catalog Edb.Lib

/-! ## Planning keeps the top of a plan -/

/-- A plan that is neither a limit nor a cursor at its top. -/
def bare : Plan → Bool
  | .limit _ _ _ => false
  | .cursor _ _ => false
  | _ => true

theorem peel_bare {core : Plan} (h : bare core = true) (w : Wrappers) :
    peel core w = (core, w) := by
  cases core with
  | limit input limit offset => cases h
  | cursor input token => cases h
  | _ => rfl

/-- A filter's place is no sort, limit or cursor. -/
def FilterTop (plan : Plan) : Prop := bare plan = true ∧ orderingOf plan = none

theorem filterTop_wrapFilter {plan : Plan} (h : FilterTop plan) (conjuncts : List Expr) :
    FilterTop (wrapFilter plan conjuncts) := by
  rw [wrapFilter]
  split
  · exact h
  · exact ⟨rfl, rfl⟩

theorem filterTop_accessPath (def_ : TableDef) (table : String) (alias_ : Option String)
    (pred : Expr) : FilterTop (accessPath def_ table alias_ pred) := by
  rw [accessPath]
  split
  · exact filterTop_wrapFilter ⟨rfl, rfl⟩ _
  · split
    · exact ⟨rfl, rfl⟩
    · exact filterTop_wrapFilter ⟨rfl, rfl⟩ _

/-- A filter is planned with no sort, limit or cursor on top. -/
theorem filterTop_buildFilter {schema : SchemaView} {input out : Plan} {pred : Expr}
    (h : buildFilter schema input pred = .ok out) : FilterTop out := by
  cases input with
  | scan table alias_ =>
    obtain ⟨def_, _, h⟩ := Result.bind_eq_ok.1 h
    cases h
    exact filterTop_accessPath def_ table alias_ pred
  | join kind left right on =>
    rw [buildFilter] at h
    split at h
    · cases h
      exact ⟨rfl, rfl⟩
    · obtain ⟨_, _, h⟩ := Result.bind_eq_ok.1 h
      obtain ⟨_, _, h⟩ := Result.bind_eq_ok.1 h
      obtain ⟨_, _, h⟩ := Result.bind_eq_ok.1 h
      obtain ⟨_, _, h⟩ := Result.bind_eq_ok.1 h
      cases h
      exact filterTop_wrapFilter ⟨rfl, rfl⟩ _
  | _ =>
    cases h
    exact ⟨rfl, rfl⟩

/-- The planner leaves a limit, a cursor or a sort where it is and brings none to the top. -/
theorem optimize_top {schema : SchemaView} {logical core : Plan}
    (h : optimize schema logical = .ok core) :
    bare core = bare logical ∧ orderingOf core = orderingOf logical := by
  cases logical with
  | filter input pred =>
    obtain ⟨_, _, h⟩ := Result.bind_eq_ok.1 h
    exact filterTop_buildFilter h
  | join kind left right on =>
    obtain ⟨_, _, h⟩ := Result.bind_eq_ok.1 h
    obtain ⟨_, _, h⟩ := Result.bind_eq_ok.1 h
    cases h
    exact ⟨rfl, rfl⟩
  | scan table alias_ =>
    cases h
    exact ⟨rfl, rfl⟩
  | indexScan table alias_ index keyPrefix =>
    cases h
    exact ⟨rfl, rfl⟩
  | pkLookup table alias_ key =>
    cases h
    exact ⟨rfl, rfl⟩
  | _ =>
    obtain ⟨_, _, h⟩ := Result.bind_eq_ok.1 h
    cases h
    exact ⟨rfl, rfl⟩

/-! ## The same request with a token -/

/-- The same request with a token as its cursor. -/
def withCursor (select : Select) (token : Option Bytes) : Select :=
  match token, select with
  | none, select => select
  | some token, .pipeline stages => .pipeline (stages ++ [.cursor token])
  | some token, .clause clause => .clause { clause with cursor := some token }

/-- Sending a request, and again with the token of each answer while there is one: the
answers in order. -/
inductive Exchange (fx : Intrinsics) (snap : CatSnapshot) (select : Select) :
    Option Bytes → List QueryResult → Prop
  | last {token : Option Bytes} {result : QueryResult}
      (h : executeSelect fx snap (withCursor select token) = .ok result)
      (hc : result.cursor = none) : Exchange fx snap select token [result]
  | next {token : Option Bytes} {token' : Bytes} {result : QueryResult}
      {results : List QueryResult}
      (h : executeSelect fx snap (withCursor select token) = .ok result)
      (hc : result.cursor = some token') (hr : Exchange fx snap select (some token') results) :
      Exchange fx snap select token (result :: results)

/-- The last stage of a pipeline is lowered over the plan of the others. -/
theorem lowerPipeline_append {stages : List Stage} {plan : Plan}
    (h : lowerPipeline stages = .ok plan) (stage : Stage) :
    lowerPipeline (stages ++ [stage]) = lowerStage plan stage := by
  cases stages with
  | nil => cases h
  | cons head rest =>
    cases head with
    | scan table =>
      have hfold : rest.foldlM lowerStage (.scan table.table table.alias_) = .ok plan := h
      show (rest ++ [stage]).foldlM lowerStage (.scan table.table table.alias_) = _
      rw [List.foldlM_append, hfold, Result.ok_bind, List.foldlM_cons]
      exact bind_pure _
    | _ => cases h

/-- A cursor stage at the end is a cursor node on top. -/
theorem lowerPipeline_cursor {stages : List Stage} {token : Bytes} {plan : Plan}
    (h : lowerPipeline (stages ++ [.cursor token]) = .ok plan) :
    ∃ inner, plan = .cursor inner token := by
  cases stages with
  | nil => cases h
  | cons head rest =>
    cases head with
    | scan table =>
      have hfold : (rest ++ [Stage.cursor token]).foldlM lowerStage
          (.scan table.table table.alias_) = .ok plan := h
      rw [List.foldlM_append] at hfold
      obtain ⟨inner, _, hlast⟩ := Result.bind_eq_ok.1 hfold
      cases hlast
      exact ⟨inner, rfl⟩
    | _ => cases h

/-- The cursor of a clause is its last stage. -/
theorem desugarClause_cursor (clause : ClauseSelect) (cursor : Option Bytes) :
    desugarClause { clause with cursor := cursor }
      = (desugarClause { clause with cursor := none }).map
        (fun stages => stages ++ (cursor.map Stage.cursor).toList) := by
  rw [desugarClause, desugarClause]
  cases clause.from with
  | none => rfl
  | some table =>
    show (splitSelect clause.select >>= _) = Except.map _ (splitSelect clause.select >>= _)
    cases splitSelect clause.select with
    | error e => rfl
    | ok split =>
      rw [Result.ok_bind, Result.ok_bind]
      by_cases hbad : (clause.having.isSome
          && !(!clause.groupBy.isEmpty || !split.1.isEmpty)) = true
      · simp only [hbad, if_true, Except.map]
      · simp only [hbad, if_false, Except.map, Result.pure_eq_ok, Option.map_none,
          Option.toList_none, List.append_nil, Bool.false_eq_true]

/-- A request that lowers to a limit has no cursor yet, and with one lowers to the same plan
under the cursor. -/
theorem lower_withCursor {select : Select} {input : Plan} {limit : Option Nat} {offset : Nat}
    (h : lower select = .ok (.limit input limit offset)) (token : Bytes) :
    lower (withCursor select (some token)) = .ok (.cursor (.limit input limit offset) token) := by
  cases select with
  | pipeline stages => exact lowerPipeline_append h (.cursor token)
  | clause clause =>
    have hsplit := desugarClause_cursor clause
    obtain ⟨stages, hstages, hlow⟩ := Result.bind_eq_ok.1 h
    have hself : desugarClause clause = .ok stages := hstages
    cases hbase : desugarClause { clause with cursor := none } with
    | error e =>
      have := hsplit clause.cursor
      rw [hbase] at this
      cases hself.symm.trans this
    | ok base =>
      have hclause := hsplit clause.cursor
      rw [hbase] at hclause
      have hstages : stages = base ++ (clause.cursor.map Stage.cursor).toList :=
        Except.ok.inj (hself.symm.trans hclause)
      cases hcur : clause.cursor with
      | some token' =>
        rw [hstages, hcur] at hlow
        obtain ⟨inner, hinner⟩ := lowerPipeline_cursor hlow
        cases hinner
      | none =>
        rw [hcur] at hstages
        simp only [Option.map_none, Option.toList_none, List.append_nil] at hstages
        subst hstages
        show (desugarClause { clause with cursor := some token } >>= _) = _
        rw [hsplit (some token), hbase]
        exact lowerPipeline_append hlow (.cursor token)

section

variable {fx : Intrinsics} {snap : CatSnapshot} {select : Select} {output : List OutputColumn}
  {logical core : Plan} {n o : Nat} {rel : Relation}

/-- The plan of a request with or without a token. -/
def wrapped (core : Plan) (n o : Nat) (token : Option Bytes) : Plan :=
  token.elim (.limit core (some n) o) (fun token => .cursor (.limit core (some n) o) token)

/-- A request that validates and plans does so again with a token, and runs the page of its
core. -/
theorem executeSelect_withCursor (hvalid : validateSelect select (schemaOf snap) = .ok output)
    (hlower : lower select = .ok (.limit logical (some n) o))
    (hplan : plan logical (schemaOf snap) = .ok core) (token : Option Bytes) :
    executeSelect fx snap (withCursor select token) = (do
      let page ← raise .exec (executePage fx snap (wrapped core n o token))
      pure (resultOf page)) := by
  have hopt : optimize (schemaOf snap) logical = .ok core := hplan
  cases token with
  | none =>
    show executeSelect fx snap select = _
    rw [executeSelect, hvalid, raise_ok, Result.ok_bind, hlower, raise_ok, Result.ok_bind, plan,
      optimize, hopt]
    rfl
  | some token =>
    have hlower' := lower_withCursor hlower token
    have hvalid' : validateSelect (withCursor select (some token)) (schemaOf snap)
        = .ok output := by
      rw [validateSelect, hlower] at hvalid
      rw [validateSelect, hlower']
      exact hvalid
    rw [executeSelect, hvalid', raise_ok, Result.ok_bind, hlower', raise_ok, Result.ok_bind, plan,
      optimize, optimize, hopt]
    rfl

theorem peel_wrapped (hbare : bare core = true) (n o : Nat) (token : Option Bytes) :
    peel (wrapped core n o token) ⟨none, 0, none⟩ = (core, ⟨some n, o, token⟩) := by
  cases token with
  | none => exact peel_bare hbare _
  | some token => exact peel_bare hbare _

theorem countJoins_wrapped (core : Plan) (n o : Nat) (token : Option Bytes) :
    countJoins (wrapped core n o token) = countJoins core := by
  cases token <;> rfl

/-- An answer is that of a page. -/
theorem executeSelect_eq_ok (hvalid : validateSelect select (schemaOf snap) = .ok output)
    (hlower : lower select = .ok (.limit logical (some n) o))
    (hplan : plan logical (schemaOf snap) = .ok core) {token : Option Bytes}
    {result : QueryResult} :
    executeSelect fx snap (withCursor select token) = .ok result ↔
      ∃ page, executePage fx snap (wrapped core n o token) = .ok page ∧ result = resultOf page := by
  rw [executeSelect_withCursor hvalid hlower hplan, Result.bind_eq_ok]
  refine exists_congr fun page => and_congr raise_eq_ok ?_
  constructor
  · intro h
    cases h
    rfl
  · intro h
    rw [h]
    rfl

/-- An answer without a token ends the exchange. -/
theorem exchange_of_last {token : Option Bytes} {result : QueryResult}
    (hres : executeSelect fx snap (withCursor select token) = .ok result)
    (hc : result.cursor = none) {results : List QueryResult}
    (hex : Exchange fx snap select token results) : results = [result] := by
  cases hex with
  | last hres' hc' =>
    rw [hres] at hres'
    cases hres'
    rfl
  | next hres' hc' _ =>
    rw [hres] at hres'
    cases hres'
    rw [hc] at hc'
    cases hc'

/-- The answer to a request whose first page carries no token. -/
theorem first_answer (hvalid : validateSelect select (schemaOf snap) = .ok output)
    (hlower : lower select = .ok (.limit logical (some n) o))
    (hplan : plan logical (schemaOf snap) = .ok core) (hbare : bare core = true)
    (hrun : RunsWithinCaps fx snap core rel)
    (hunordered : orderingOf core = none ∨ rel.rows.length ≤ o + n) :
    executeSelect fx snap (withCursor select none) = .ok ⟨rel.shape.cols.map BoundColumn.name,
      (rel.rows.drop o).take n, none, none, none⟩ := by
  refine (executeSelect_eq_ok hvalid hlower hplan).2 ⟨⟨rel.shape, (rel.rows.drop o).take n, none⟩,
    ?_, rfl⟩
  rw [executePage_eq hrun (peel_wrapped hbare n o none) (countJoins_wrapped core n o none)]
  show cut fx (orderingOf core) rel.shape (rel.rows.drop o) (some n) = _
  rw [cut, List.length_drop]
  rcases hunordered with hnone | hfew
  · rw [hnone]
    split <;> rfl
  · rw [if_neg (by omega)]
    rfl

section Ordered

variable {keys : List SortKey} (h : Resumable fx snap core keys rel)
  (hvalid : validateSelect select (schemaOf snap) = .ok output)
  (hlower : lower select = .ok (.limit logical (some n) o))
  (hplan : plan logical (schemaOf snap) = .ok core) (hn : 1 ≤ n)

include h hvalid hlower hplan hn

/-- The answer at a position that has a token. The offset is skipped again on every page. -/
theorem answer_at {p : Nat} (hp : p ≤ rel.rows.length)
    (htoken : 0 < p → ∃ token, tokenAt fx keys rel p = some token) {result : QueryResult} :
    executeSelect fx snap (withCursor select (tokenAt fx keys rel p)) = .ok result ↔
      result = resultOf (pageAt fx keys rel n (p + o)) ∧
        (p + o + n < rel.rows.length → ∃ token, tokenAt fx keys rel (p + o + n) = some token) := by
  have hbare : bare core = true := by
    obtain ⟨input, rfl⟩ := h.sorted
    rfl
  rw [executeSelect_eq_ok hvalid hlower hplan]
  simp only [executePage_at h (peel_wrapped hbare n o _) (countJoins_wrapped core n o _) hn hp
    htoken]
  constructor
  · rintro ⟨page, ⟨rfl, hmore⟩, rfl⟩
    exact ⟨rfl, hmore⟩
  · rintro ⟨rfl, hmore⟩
    exact ⟨_, ⟨rfl, hmore⟩, rfl⟩

/-- An answer with a token has rows behind it, and the token is the one at the position after it. -/
theorem answer_next {p : Nat} {result : QueryResult} {token : Bytes} (hp : p ≤ rel.rows.length)
    (htoken : 0 < p → ∃ token, tokenAt fx keys rel p = some token)
    (hres : executeSelect fx snap (withCursor select (tokenAt fx keys rel p)) = .ok result)
    (hc : result.cursor = some token) : p + o + n < rel.rows.length ∧
      some token = tokenAt fx keys rel (p + o + n) ∧
      result.rows = (rel.rows.drop (p + o)).take n := by
  obtain ⟨rfl, _⟩ := (answer_at h hvalid hlower hplan hn hp htoken).1 hres
  have hc : (if p + o + n < rel.rows.length then tokenAt fx keys rel (p + o + n) else none)
      = some token := hc
  split at hc
  · next hmore => exact ⟨hmore, hc.symm, rfl⟩
  · cases hc

/-- Without an offset, and with a token wherever a page ends, the answers from a position on are
the rows from there on. -/
theorem exchange_from (ho : o = 0)
    (htokens : ∀ p, 0 < p → n ∣ p → p < rel.rows.length →
      ∃ token, tokenAt fx keys rel p = some token)
    {p : Nat} (hdvd : n ∣ p) (hp : p < rel.rows.length ∨ p = 0) :
    ∃ results, Exchange fx snap select (tokenAt fx keys rel p) results ∧
      results.flatMap QueryResult.rows = rel.rows.drop p := by
  subst ho
  induction hleft : rel.rows.length - p using Nat.strong_induction_on generalizing p with
  | _ left ih =>
    have hnext : p + n < rel.rows.length → ∃ token, tokenAt fx keys rel (p + n) = some token :=
      fun hmore => htokens (p + n) (by omega) ((Nat.dvd_add_right hdvd).2 (Nat.dvd_refl n)) hmore
    have hanswer := (answer_at h hvalid hlower hplan hn (p := p) (by omega)
      (fun hpos => htokens p hpos hdvd (by omega))).2 ⟨rfl, hnext⟩
    rw [Nat.add_zero] at hanswer
    by_cases hmore : p + n < rel.rows.length
    · obtain ⟨token, htok⟩ := hnext hmore
      obtain ⟨results, hex, hrows⟩ := ih (rel.rows.length - (p + n)) (by omega) (p := p + n)
        ((Nat.dvd_add_right hdvd).2 (Nat.dvd_refl n)) (.inl hmore) rfl
      rw [htok] at hex
      refine ⟨_ :: results, .next hanswer ?_ hex, ?_⟩
      · show (if p + n < rel.rows.length then tokenAt fx keys rel (p + n) else none) = _
        rw [if_pos hmore, htok]
      · rw [List.flatMap_cons, hrows, ← List.drop_drop]
        exact List.take_append_drop n _
    · refine ⟨[_], .last hanswer (if_neg hmore), ?_⟩
      rw [List.flatMap_singleton]
      apply List.take_of_length_le
      rw [List.length_drop]
      omega

/-- The answers from a position on miss at least the offset. -/
theorem exchange_length {token : Option Bytes} {results : List QueryResult}
    (hex : Exchange fx snap select token results) :
    ∀ {p : Nat}, token = tokenAt fx keys rel p → p ≤ rel.rows.length →
      (0 < p → ∃ token, tokenAt fx keys rel p = some token) →
      (results.flatMap QueryResult.rows).length ≤ rel.rows.length - (p + o) := by
  induction hex with
  | last hres hc =>
    intro p htok hp htoken
    rw [htok] at hres
    obtain ⟨rfl, _⟩ := (answer_at h hvalid hlower hplan hn hp htoken).1 hres
    rw [List.flatMap_singleton]
    show ((rel.rows.drop (p + o)).take n).length ≤ _
    rw [List.length_take, List.length_drop]
    omega
  | @next token token' result results hres hc hr ih =>
    intro p htok hp htoken
    rw [htok] at hres
    obtain ⟨hmore, hnext, hrows⟩ := answer_next h hvalid hlower hplan hn hp htoken hres hc
    have hrest := ih hnext hmore.le (fun _ => ⟨_, hnext.symm⟩)
    rw [List.flatMap_cons, List.length_append, hrows, List.length_take, List.length_drop]
    omega

/-- Every position a page ends at, on the way from one, has a token. -/
theorem exchange_tokens (ho : o = 0) {token : Option Bytes} {results : List QueryResult}
    (hex : Exchange fx snap select token results) :
    ∀ {p : Nat}, token = tokenAt fx keys rel p → p ≤ rel.rows.length →
      (0 < p → ∃ token, tokenAt fx keys rel p = some token) →
      ∀ j, p + (j + 1) * n < rel.rows.length →
        ∃ token, tokenAt fx keys rel (p + (j + 1) * n) = some token := by
  subst ho
  induction hex with
  | last hres hc =>
    intro p htok hp htoken j hj
    rw [htok] at hres
    obtain ⟨rfl, hnext⟩ := (answer_at h hvalid hlower hplan hn hp htoken).1 hres
    have hmore : p + 0 + n < rel.rows.length := by
      have hle : n ≤ (j + 1) * n := Nat.le_mul_of_pos_left n (Nat.zero_lt_succ j)
      omega
    -- there are rows behind the page, so it has a token
    obtain ⟨token, htoken⟩ := hnext hmore
    have hc : (if p + 0 + n < rel.rows.length then tokenAt fx keys rel (p + 0 + n) else none)
        = none := hc
    rw [if_pos hmore, htoken] at hc
    cases hc
  | @next token token' result results hres hc hr ih =>
    intro p htok hp htoken j hj
    rw [htok] at hres
    obtain ⟨hmore, hnext, _⟩ := answer_next h hvalid hlower hplan hn hp htoken hres hc
    rw [Nat.add_zero] at hmore hnext
    cases j with
    | zero =>
      rw [Nat.zero_add, Nat.one_mul]
      exact ⟨_, hnext.symm⟩
    | succ j =>
      have hstep : p + (j + 1 + 1) * n = p + n + (j + 1) * n := by
        rw [Nat.succ_mul (j + 1) n]
        omega
      rw [hstep] at hj ⊢
      exact ih hnext hmore.le (fun _ => ⟨_, hnext.symm⟩) j hj

/-- Every position a page ends at has a token. -/
theorem exchange_page_ends (ho : o = 0) {results : List QueryResult}
    (hex : Exchange fx snap select none results) {p : Nat} (hpos : 0 < p) (hdvd : n ∣ p)
    (hp : p < rel.rows.length) : ∃ token, tokenAt fx keys rel p = some token := by
  obtain ⟨j, rfl⟩ := hdvd
  obtain ⟨i, rfl⟩ := Nat.exists_eq_add_one_of_ne_zero (fun hj : j = 0 => by simp [hj] at hpos)
  have htoken := exchange_tokens h hvalid hlower hplan hn ho hex (p := 0) rfl
    (Nat.zero_le _) (fun hlt => absurd hlt (Nat.lt_irrefl 0)) i
  rw [Nat.zero_add, Nat.mul_comm] at htoken
  exact htoken hp

/-- An offset is skipped on every page, so what follows the first one falls short. -/
theorem exchange_falls_short (ho : o ≠ 0) (hmany : o + n < rel.rows.length)
    {results : List QueryResult} (hex : Exchange fx snap select none results) :
    (results.flatMap QueryResult.rows).length < rel.rows.length - o := by
  have hzero : 0 < 0 → ∃ token, tokenAt fx keys rel 0 = some token :=
    fun hlt => absurd hlt (Nat.lt_irrefl 0)
  cases hex with
  | last hres hc =>
    obtain ⟨rfl, hnext⟩ :=
      (answer_at h hvalid hlower hplan hn (p := 0) (Nat.zero_le _) hzero).1 hres
    -- there are rows behind the page, so it has a token
    obtain ⟨token, htoken⟩ := hnext (by omega)
    have hc : (if 0 + o + n < rel.rows.length then tokenAt fx keys rel (0 + o + n) else none)
        = none := hc
    rw [if_pos (by omega), htoken] at hc
    cases hc
  | @next token token' result results hres hc hr =>
    obtain ⟨hmore, hnext, hpage⟩ := answer_next h hvalid hlower hplan hn (p := 0)
      (Nat.zero_le _) hzero hres hc
    have hrest := exchange_length h hvalid hlower hplan hn hr hnext hmore.le
      (fun _ => ⟨_, hnext.symm⟩)
    rw [List.flatMap_cons, List.length_append, hpage, List.length_take, List.length_drop]
    omega

end Ordered

/-- What is planned has the top and the rows of the lowered plan. -/
theorem planned_core (hserved : SnapshotServed snap) (hfits : planFits snap logical = true)
    (hrun : execute fx snap logical = .ok rel) (hplan : plan logical (schemaOf snap) = .ok core)
    (heval : ∀ e, execute fx snap core ≠ .error (.eval e)) :
    bare core = bare logical ∧ orderingOf core = orderingOf logical ∧
      execute fx snap core = .ok rel := by
  obtain ⟨hbare, hordering⟩ := optimize_top hplan
  refine ⟨hbare, hordering, ?_⟩
  obtain ⟨core', hplan', hrun' | ⟨_, e, he⟩⟩ := plan_preserves hserved hfits hrun
  · cases hplan.symm.trans hplan'
    exact hrun'
  · cases hplan.symm.trans hplan'
    exact absurd he (heval e)

/-- A request that is answered at all runs within the caps. -/
theorem Exchange.runsWithinCaps (hvalid : validateSelect select (schemaOf snap) = .ok output)
    (hlower : lower select = .ok (.limit logical (some n) o))
    (hplan : plan logical (schemaOf snap) = .ok core) (hbare : bare core = true)
    (hcore : execute fx snap core = .ok rel) {results : List QueryResult}
    (hex : Exchange fx snap select none results) : RunsWithinCaps fx snap core rel := by
  obtain ⟨result, hres⟩ : ∃ result, executeSelect fx snap (withCursor select none)
      = .ok result := by
    cases hex with
    | last hres _ => exact ⟨_, hres⟩
    | next hres _ _ => exact ⟨_, hres⟩
  obtain ⟨page, hpage, _⟩ := (executeSelect_eq_ok hvalid hlower hplan).1 hres
  exact runsWithinCaps_of_page hcore (peel_wrapped hbare n o none)
    (countJoins_wrapped core n o none) hpage

end

/-- The items in descending order, projected, one a page. -/
def itemsProjected : Select :=
  .pipeline [.scan ⟨"items", none⟩, .sort [⟨.column none "id", .desc⟩],
    .project [.expr (.column none "id")], .limit (some 1) 0]

/-- The guests by seat, two a page, seat 2 counted as two and a half. -/
def guestsPaged : Select :=
  .pipeline [.scan ⟨"guests", none⟩,
    .sort [⟨.coalesce [.nullIf (.column none "seat") (.literal (.i64 2)),
      .literal (.f64 ⟨0x4004000000000000⟩)], .desc⟩], .limit (some 2) 0]

/-- The plan below the limit of `guestsPaged`; it is planned as it is. -/
def guestsBySeat : Plan :=
  .sort (.scan "guests" none) [⟨.coalesce [.nullIf (.column none "seat") (.literal (.i64 2)),
    .literal (.f64 ⟨0x4004000000000000⟩)], .desc⟩]

end Edb.Query
