import Edb.Query.Page

/-!
# Stacked limits

The reference executor applies every limit of a stack to what the one below it leaves. The paged
executor peels the stack off its core and remembers one limit and one offset, those of the
innermost; the others are forgotten.

* **When a page is the result** (`executePage_agrees_iff`): the forgotten limits have nothing to
  cut, and the page can be given its token.
-/

namespace Edb.Query

open Edb.Types Edb.Proto Edb.Catalog Edb.Lib

/-- A limit with its offset. -/
abbrev Window := Option Nat × Nat

/-- The limits on top of a plan, the outermost first. -/
def windows : Plan → List Window
  | .limit input limit offset => (limit, offset) :: windows input
  | _ => []

/-- What stands below the limits. -/
def coreOf : Plan → Plan
  | .limit input _ _ => coreOf input
  | plan => plan

/-- The rows a window leaves. -/
def Window.apply (w : Window) (rows : List Row) : List Row := applyLimit rows w.1 w.2

/-- The rows a stack of windows leaves, the last of the list applied first. -/
def applyAll (ws : List Window) (rows : List Row) : List Row := ws.foldr Window.apply rows

/-- The innermost window, the one that does nothing when there is none. -/
def innermost (plan : Plan) : Window := (windows plan).getLastD (none, 0)

/-- The windows that are peeled off and forgotten. -/
def forgotten (plan : Plan) : List Window := (windows plan).dropLast

/-- A window that has nothing to cut from `n` rows. -/
def Window.Idle (w : Window) (n : Nat) : Prop := w.2 = 0 ∧ ∀ limit, w.1 = some limit → n ≤ limit

theorem Window.apply_sublist (w : Window) (rows : List Row) : (w.apply rows).Sublist rows := by
  obtain ⟨limit, offset⟩ := w
  cases limit with
  | none => exact List.drop_sublist _ _
  | some n => exact (List.take_sublist _ _).trans (List.drop_sublist _ _)

/-- A window keeps all rows when there are none or it is idle. -/
theorem Window.apply_eq_self {w : Window} {rows : List Row} :
    w.apply rows = rows ↔ rows = [] ∨ w.Idle rows.length := by
  have hlength : (w.apply rows).length = rows.length ↔ rows = [] ∨ w.Idle rows.length := by
    rw [← List.length_eq_zero_iff]
    obtain ⟨limit, offset⟩ := w
    cases limit with
    | none =>
      show (rows.drop offset).length = rows.length ↔ _
      simp only [Idle, List.length_drop, reduceCtorEq, false_implies, implies_true, and_true]
      omega
    | some n =>
      show ((rows.drop offset).take n).length = rows.length ↔ _
      simp only [Idle, List.length_take, List.length_drop, Option.some.injEq, forall_eq']
      omega
  rw [← hlength]
  constructor
  · intro h
    rw [h]
  · exact (w.apply_sublist rows).eq_of_length

theorem applyAll_sublist (ws : List Window) (rows : List Row) :
    (applyAll ws rows).Sublist rows := by
  induction ws with
  | nil => exact List.Sublist.refl rows
  | cons w ws ih => exact (w.apply_sublist _).trans ih

/-- A stack keeps all rows when there are none or each of its windows is idle. -/
theorem applyAll_eq_self {ws : List Window} {rows : List Row} :
    applyAll ws rows = rows ↔ rows = [] ∨ ∀ w ∈ ws, w.Idle rows.length := by
  induction ws with
  | nil => simp [applyAll]
  | cons w ws ih =>
    have hsub := applyAll_sublist ws rows
    constructor
    · intro h
      -- what the whole stack keeps, its lower part kept
      have hle : rows.length ≤ (applyAll ws rows).length := by
        have hlen := (w.apply_sublist (applyAll ws rows)).length_le
        have h : w.apply (applyAll ws rows) = rows := h
        rwa [h] at hlen
      have hrest := hsub.eq_of_length_le hle
      have hfirst : w.apply rows = rows := by
        have h : w.apply (applyAll ws rows) = rows := h
        rwa [hrest] at h
      rcases ih.1 hrest with hnil | hidle
      · exact .inl hnil
      rcases Window.apply_eq_self.1 hfirst with hnil | hw
      · exact .inl hnil
      · refine .inr (fun w' hw' => ?_)
        rcases List.mem_cons.1 hw' with rfl | hw'
        · exact hw
        · exact hidle w' hw'
    · intro h
      have hrest : applyAll ws rows = rows :=
        ih.2 (h.imp_right (fun hidle w' hw' => hidle w' (List.mem_cons_of_mem _ hw')))
      show w.apply (applyAll ws rows) = rows
      rw [hrest]
      exact Window.apply_eq_self.2 (h.imp_right (fun hidle => hidle w List.mem_cons_self))

/-- The stack is the forgotten windows over the innermost one. -/
theorem applyAll_windows (plan : Plan) (rows : List Row) :
    applyAll (windows plan) rows
      = applyAll (forgotten plan) ((innermost plan).apply rows) := by
  rw [forgotten, innermost]
  cases hws : windows plan with
  | nil => rfl
  | cons w ws =>
    have hne : w :: ws ≠ [] := List.cons_ne_nil w ws
    have hlast : (w :: ws).getLastD (none, 0) = (w :: ws).getLast hne := by
      rw [List.getLastD_eq_getLast?, List.getLast?_eq_some_getLast hne]
      rfl
    have hsplit := List.dropLast_append_getLast hne
    rw [hlast]
    conv => lhs; rw [← hsplit]
    rw [applyAll, List.foldr_append]
    rfl

/-! ## The two executors on a stack -/

section

variable {fx : Intrinsics} {snap : CatSnapshot} {plan : Plan} {rel crel : Relation}

/-- The reference result of a stack is cut from that of its core. -/
theorem execute_windows (hcore : execute fx snap (coreOf plan) = .ok crel) :
    execute fx snap plan = .ok ⟨crel.shape, applyAll (windows plan) crel.rows⟩ := by
  induction plan with
  | limit input limit offset ih =>
    rw [execute, ih hcore]
    rfl
  | _ => exact hcore

theorem coreOf_ne_cursor (hcore : execute fx snap (coreOf plan) = .ok crel) {input : Plan}
    {token : Bytes} : coreOf plan ≠ .cursor input token := by
  intro h
  rw [h] at hcore
  cases hcore

/-- Peeling keeps the core and the innermost window. -/
theorem peel_windows (hcore : ∀ input token, coreOf plan ≠ .cursor input token) (w : Wrappers) :
    peel plan w = (coreOf plan,
      match (windows plan).getLast? with
      | some window => { w with limit := window.1, offset := window.2 }
      | none => w) := by
  induction plan generalizing w with
  | limit input limit offset ih =>
    rw [peel, ih hcore, coreOf, windows]
    cases hws : windows input with
    | nil => rfl
    | cons w' ws =>
      rw [List.getLast?_cons_cons, List.getLast?_eq_some_getLast (List.cons_ne_nil w' ws)]
  | cursor input token _ => exact absurd rfl (hcore input token)
  | _ => rfl

theorem countJoins_coreOf (plan : Plan) : countJoins (coreOf plan) = countJoins plan := by
  induction plan with
  | limit input limit offset ih => exact ih
  | _ => rfl

variable (fx plan crel) in
/-- The rows the innermost window leaves: what the paged executor cuts to. -/
def pageRows : List Row := (innermost plan).apply crel.rows

variable (fx plan crel) in
/-- A page that leaves rows behind it can be given its token: the key of its last row encodes. -/
def TokenEncodes : Prop :=
  ∀ keys n row, orderingOf (coreOf plan) = some keys → (innermost plan).1 = some n →
    n < (crel.rows.drop (innermost plan).2).length → (pageRows plan crel).getLast? = some row →
    ∃ payload, Types.encodeRow (keyOf fx keys crel.shape row) = .ok payload

/-- The paged executor cuts the core's rows to the innermost window. -/
theorem executePage_windows (hcore : RunsWithinCaps fx snap (coreOf plan) crel) :
    executePage fx snap plan = cut fx (orderingOf (coreOf plan)) crel.shape
      (crel.rows.drop (innermost plan).2) (innermost plan).1 := by
  have hpeel := peel_windows (fun _ _ => coreOf_ne_cursor hcore.run) ⟨none, 0, none⟩
  have hw : (match (windows plan).getLast? with
      | some window => ({ limit := window.1, offset := window.2, resume := none } : Wrappers)
      | none => ⟨none, 0, none⟩) = ⟨(innermost plan).1, (innermost plan).2, none⟩ := by
    rw [innermost, List.getLastD_eq_getLast?]
    cases (windows plan).getLast? <;> rfl
  rw [hw] at hpeel
  rw [executePage_eq hcore hpeel (countJoins_coreOf plan).symm]
  rfl

/-- The core's rows have the keys it sorts by. -/
theorem coreOf_keyed (hcore : RunsWithinCaps fx snap (coreOf plan) crel) {keys : List SortKey}
    (hkeys : orderingOf (coreOf plan) = some keys) : Keyed fx keys crel.shape crel.rows := by
  have hrun := hcore.run
  cases hplan : coreOf plan with
  | sort input keys' =>
    rw [hplan] at hrun hkeys
    cases hkeys
    obtain ⟨inner, _, hsort⟩ := Result.bind_eq_ok.1 hrun
    exact sort_keyed hsort
  | _ =>
    rw [hplan] at hkeys
    cases hkeys

/-- A token can be made for a row that has a key when the key encodes. -/
theorem continuation_ok_iff {ordering : Option (List SortKey)} {shape : Shape} {last : Option Row}
    (hkey : ∀ keys row, ordering = some keys → last = some row →
      sortKeys fx keys shape row = .ok (keyOf fx keys shape row)) :
    (∃ cursor, continuation fx ordering shape last = .ok cursor) ↔
      ∀ keys row, ordering = some keys → last = some row →
        ∃ payload, Types.encodeRow (keyOf fx keys shape row) = .ok payload := by
  constructor
  · rintro ⟨cursor, hcursor⟩ keys row rfl rfl
    obtain ⟨token, htoken, _⟩ := Result.bind_eq_ok.1 hcursor
    obtain ⟨key, hof, htoken⟩ := Result.bind_eq_ok.1 htoken
    rw [hkey keys row rfl rfl] at hof
    cases hof
    obtain ⟨payload, hpayload, _⟩ := Result.bind_eq_ok.1 htoken
    exact ⟨payload, ofTypes_eq_ok.1 hpayload⟩
  · intro henc
    match ordering, last with
    | none, _ => exact ⟨none, rfl⟩
    | some _, none => exact ⟨none, rfl⟩
    | some keys, some row =>
      obtain ⟨payload, hpayload⟩ := henc keys row rfl rfl
      obtain ⟨token, htoken⟩ := exists_encodeResume (hkey keys row rfl rfl) hpayload
      refine ⟨some token, ?_⟩
      rw [continuation, htoken]
      rfl

/-- Cutting fails only on the token. -/
theorem cut_ok_iff {ordering : Option (List SortKey)} {shape : Shape} {rows : List Row}
    {limit : Option Nat} :
    (∃ page, cut fx ordering shape rows limit = .ok page) ↔
      ∀ n, limit = some n → n < rows.length →
        ∃ cursor, continuation fx ordering shape (rows.take n).getLast? = .ok cursor := by
  cases limit with
  | none =>
    refine ⟨?_, fun _ => ⟨_, rfl⟩⟩
    intro _ n hn
    cases hn
  | some n =>
    rw [cut]
    by_cases hmore : rows.length > n
    · rw [if_pos hmore]
      constructor
      · rintro ⟨page, hpage⟩ m hm _
        cases hm
        obtain ⟨cursor, hcursor, _⟩ := Result.bind_eq_ok.1 hpage
        exact ⟨cursor, hcursor⟩
      · intro h
        obtain ⟨cursor, hcursor⟩ := h n rfl hmore
        refine ⟨⟨shape, rows.take n, cursor⟩, ?_⟩
        rw [hcursor]
        rfl
    · rw [if_neg hmore]
      refine ⟨?_, fun _ => ⟨_, rfl⟩⟩
      intro _ m hm hlt
      cases hm
      exact absurd hlt hmore

/-- What is cut holds the first rows. -/
theorem cut_rows {ordering : Option (List SortKey)} {shape : Shape} {rows : List Row}
    {limit : Option Nat} {page : Page} (h : cut fx ordering shape rows limit = .ok page) :
    page.rows = applyLimit rows limit 0 := by
  cases limit with
  | none =>
    cases h
    rfl
  | some n =>
    rw [cut] at h
    split at h
    · obtain ⟨cursor, _, h⟩ := Result.bind_eq_ok.1 h
      cases h
      rfl
    · cases h
      rfl

/-- There is a page when it can be given its token. -/
theorem executePage_ok_iff (hcore : RunsWithinCaps fx snap (coreOf plan) crel) :
    (∃ page, executePage fx snap plan = .ok page) ↔ TokenEncodes fx plan crel := by
  rw [executePage_windows hcore, cut_ok_iff]
  constructor
  · intro h keys n row hkeys hn hmore hlast
    have hrows : pageRows plan crel = (crel.rows.drop (innermost plan).2).take n := by
      rw [pageRows, Window.apply, hn]
      rfl
    rw [hrows] at hlast
    refine (continuation_ok_iff ?_).1 (h n hn hmore) keys row hkeys hlast
    intro keys' row' hkeys' hlast'
    exact coreOf_keyed hcore hkeys' row'
      (List.mem_of_mem_drop (List.mem_of_mem_take (List.mem_of_getLast? hlast')))
  · intro h n hn hmore
    have hrows : pageRows plan crel = (crel.rows.drop (innermost plan).2).take n := by
      rw [pageRows, Window.apply, hn]
      rfl
    refine (continuation_ok_iff ?_).2 (fun keys row hkeys hlast => h keys n row hkeys hn hmore ?_)
    · intro keys' row' hkeys' hlast'
      exact coreOf_keyed hcore hkeys' row'
        (List.mem_of_mem_drop (List.mem_of_mem_take (List.mem_of_getLast? hlast')))
    · rw [hrows]
      exact hlast

/-- A page holds the rows the innermost window leaves. -/
theorem executePage_rows (hcore : RunsWithinCaps fx snap (coreOf plan) crel) {page : Page}
    (h : executePage fx snap plan = .ok page) : page.rows = pageRows plan crel := by
  rw [executePage_windows hcore] at h
  rw [cut_rows h, pageRows, Window.apply]
  cases (innermost plan).1 <;> rfl

/-- The paged executor agrees with the reference executor on a stack of limits exactly when the
forgotten windows have nothing to cut and the page can be given its token. -/
theorem executePage_agrees_iff (hcore : RunsWithinCaps fx snap (coreOf plan) crel)
    (h : execute fx snap plan = .ok rel) :
    (∃ page, executePage fx snap plan = .ok page ∧ page.rows = rel.rows) ↔
      (pageRows plan crel = [] ∨ ∀ w ∈ forgotten plan, w.Idle (pageRows plan crel).length) ∧
        TokenEncodes fx plan crel := by
  have hrel : rel.rows = applyAll (forgotten plan) (pageRows plan crel) := by
    rw [execute_windows hcore.run] at h
    cases h
    exact applyAll_windows plan crel.rows
  rw [hrel, ← applyAll_eq_self]
  constructor
  · rintro ⟨page, hpage, hrows⟩
    rw [executePage_rows hcore hpage] at hrows
    exact ⟨hrows.symm, (executePage_ok_iff hcore).1 ⟨page, hpage⟩⟩
  · rintro ⟨hkeep, henc⟩
    obtain ⟨page, hpage⟩ := (executePage_ok_iff hcore).2 henc
    exact ⟨page, hpage, (executePage_rows hcore hpage).trans hkeep.symm⟩

end

/-- The second item, through a limit that leaves it as it is. -/
def secondItem : Plan := .limit (.limit (.scan "items" none) (some 1) 1) (some 3) 0

/-- The first item, under a limit that has none of its own. -/
def firstItem : Plan := .limit (.limit (.scan "items" none) none 0) (some 1) 0

theorem executePage_agrees_second :
    ∃ page, executePage integerIntrinsics itemsSnapshot secondItem = .ok page ∧
      page.rows = [[.i64 2]] := by
  have hcore : RunsWithinCaps integerIntrinsics itemsSnapshot (coreOf secondItem)
      ⟨⟨[⟨some "items", "id"⟩]⟩, [[.i64 1], [.i64 2]]⟩ :=
    ⟨by decide +kernel, trivial, by decide, by decide⟩
  have hrun : execute integerIntrinsics itemsSnapshot secondItem
      = .ok ⟨⟨[⟨some "items", "id"⟩]⟩, [[.i64 2]]⟩ := by decide +kernel
  refine (executePage_agrees_iff hcore hrun).2 ⟨.inr ?_, ?_⟩
  · intro w hw
    cases List.mem_singleton.1 hw
    exact ⟨rfl, by decide⟩
  · intro keys n row hkeys
    cases hkeys

/-- The outer limit is forgotten: the page holds both items. -/
theorem outer_limit_is_forgotten :
    execute integerIntrinsics itemsSnapshot firstItem
        = .ok ⟨⟨[⟨some "items", "id"⟩]⟩, [[.i64 1]]⟩ ∧
      executePage integerIntrinsics itemsSnapshot firstItem
        = .ok ⟨⟨[⟨some "items", "id"⟩]⟩, [[.i64 1], [.i64 2]], none⟩ := by
  decide +kernel

end Edb.Query
