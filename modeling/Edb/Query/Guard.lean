import Edb.Catalog.References
import Edb.Query.Stream
import Edb.Query.Write

/-!
# Guarded columns

What the validator asks of an update that assigns guarded columns, read off the request
(`validated_update_is_guarded`), and what is left of it under concurrent definition jobs.

A request is validated against a snapshot and waits for the writer, while other clients
change definitions. The server is the committed catalog and the requests that wait; its
steps interleave in any order. The rule for guarded columns is checked against the snapshot,
and what it says of the table in force when the writer gets to the request depends on what
happened to the table in between.
-/

namespace Edb.Query

open Edb.Types Edb.Proto Edb.Lib
open Edb.Catalog hiding CmpOp

/-! ## The rule -/

/-- No guarded column of a definition is assigned by an expression that reads no column,
unless the selector carries a guard condition. -/
def GuardRule (update : Update) (d : TableDef) : Prop :=
  ∀ e ∈ update.set, ∀ col ∈ d.columns, col.name = e.1 → col.update = .guarded →
    referencesColumn e.2 = false →
      ∃ pred, update.selector = some (.where_ pred) ∧ hasGuardPredicate d pred = true

/-- A definition is one with columns added behind the others. -/
def ExtendedBy (d d' : TableDef) : Prop :=
  d'.name = d.name ∧ ∃ cols, d'.columns = d.columns ++ cols

theorem ExtendedBy.refl (d : TableDef) : ExtendedBy d d := ⟨rfl, [], (List.append_nil _).symm⟩

theorem ExtendedBy.trans {d d' d'' : TableDef} (h : ExtendedBy d d') (h' : ExtendedBy d' d'') :
    ExtendedBy d d'' := by
  obtain ⟨hname, cols, hcols⟩ := h
  obtain ⟨hname', cols', hcols'⟩ := h'
  exact ⟨hname'.trans hname, cols ++ cols', by rw [hcols', hcols, List.append_assoc]⟩

/-- A guard is still one among more columns. -/
theorem guardsColumn_mono {d d' : TableDef} (h : ExtendedBy d d') {e : Expr}
    (he : guardsColumn d e = true) : guardsColumn d' e = true := by
  obtain ⟨hname, cols, hcols⟩ := h
  cases e with
  | column table column =>
    rw [guardsColumn, Bool.and_eq_true_iff] at he ⊢
    rw [hname, hcols, List.any_append]
    exact ⟨he.1, by rw [he.2, Bool.true_or]⟩
  | _ => cases he

mutual

/-- A guard stays a guard when columns are added to the table. -/
theorem hasGuardPredicate_mono {d d' : TableDef} (h : ExtendedBy d d') (e : Expr)
    (he : hasGuardPredicate d e = true) : hasGuardPredicate d' e = true := by
  cases e with
  | and items =>
    rw [hasGuardPredicate] at he ⊢
    exact anyGuards_mono h items he
  | cmp op lhs rhs =>
    rw [hasGuardPredicate, Bool.or_eq_true_iff] at he ⊢
    exact he.imp (guardsColumn_mono h) (guardsColumn_mono h)
  | between expr lo hi =>
    rw [hasGuardPredicate] at he ⊢
    exact guardsColumn_mono h he
  | inList expr list =>
    rw [hasGuardPredicate] at he ⊢
    exact guardsColumn_mono h he
  | _ => cases he

theorem anyGuards_mono {d d' : TableDef} (h : ExtendedBy d d') (items : List Expr)
    (he : anyGuards d items = true) : anyGuards d' items = true := by
  cases items with
  | nil => cases he
  | cons item items =>
    rw [anyGuards, Bool.or_eq_true_iff] at he ⊢
    exact he.imp (hasGuardPredicate_mono h item) (anyGuards_mono h items)

end

/-! ## The rule read off the request -/

/-- The expression is a reference to a guarded or rowversion column of the table. -/
def GuardColumn (d : TableDef) (e : Expr) : Prop :=
  ∃ table column, e = .column table column ∧ (table = none ∨ table = some d.name) ∧
    ∃ c ∈ d.columns, c.name = column ∧ (c.update = .guarded ∨ c.rowversion = true)

/-- The predicate tests such a column, itself or in a conjunct. -/
inductive Guarding (d : TableDef) : Expr → Prop
  | left {op : CmpOp} {lhs rhs : Expr} : GuardColumn d lhs → Guarding d (.cmp op lhs rhs)
  | right {op : CmpOp} {lhs rhs : Expr} : GuardColumn d rhs → Guarding d (.cmp op lhs rhs)
  | between {expr lo hi : Expr} : GuardColumn d expr → Guarding d (.between expr lo hi)
  | inList {expr : Expr} {list : List Expr} : GuardColumn d expr → Guarding d (.inList expr list)
  | and {items : List Expr} {item : Expr} : item ∈ items → Guarding d item →
      Guarding d (.and items)

/-- What the check of one operand accepts is a guard column. -/
theorem guardsColumn_eq_true {d : TableDef} {e : Expr} (h : guardsColumn d e = true) :
    GuardColumn d e := by
  cases e with
  | column table column =>
    rw [guardsColumn, Bool.and_eq_true_iff, List.any_eq_true] at h
    obtain ⟨htable, c, hc, hcol⟩ := h
    simp only [Bool.and_eq_true_iff, Bool.or_eq_true_iff, decide_eq_true_eq] at hcol
    refine ⟨table, column, rfl, ?_, c, hc, hcol⟩
    cases table with
    | none => exact .inl rfl
    | some t => exact .inr (congrArg some (of_decide_eq_true htable))
  | _ => cases h

mutual

/-- What the check accepts as a guard guards the update. -/
theorem hasGuardPredicate_eq_true {d : TableDef} (e : Expr) (h : hasGuardPredicate d e = true) :
    Guarding d e := by
  cases e with
  | and items =>
    rw [hasGuardPredicate] at h
    obtain ⟨item, hitem, hguard⟩ := anyGuards_eq_true items h
    exact .and hitem hguard
  | cmp op lhs rhs =>
    rw [hasGuardPredicate, Bool.or_eq_true_iff] at h
    rcases h with h | h
    · exact .left (guardsColumn_eq_true h)
    · exact .right (guardsColumn_eq_true h)
  | between expr lo hi =>
    rw [hasGuardPredicate] at h
    exact .between (guardsColumn_eq_true h)
  | inList expr list =>
    rw [hasGuardPredicate] at h
    exact .inList (guardsColumn_eq_true h)
  | _ => cases h

theorem anyGuards_eq_true {d : TableDef} (items : List Expr) (h : anyGuards d items = true) :
    ∃ item ∈ items, Guarding d item := by
  cases items with
  | nil => cases h
  | cons item items =>
    rw [anyGuards, Bool.or_eq_true_iff] at h
    rcases h with h | h
    · exact ⟨item, List.mem_cons_self .., hasGuardPredicate_eq_true item h⟩
    · obtain ⟨item', hitem, hguard⟩ := anyGuards_eq_true items h
      exact ⟨item', List.mem_cons_of_mem _ hitem, hguard⟩

end

/-- The expression reads a column of the table. -/
def Reads (d : TableDef) (e : Expr) (column : String) : Prop :=
  ∃ table, (table, column) ∈ columnRefs e ∧ (table = none ∨ table = some d.name)

theorem nonempty_append {α : Type} (as bs : List α) :
    (!(as ++ bs).isEmpty) = (!as.isEmpty || !bs.isEmpty) := by
  cases as <;> simp

mutual

/-- An expression is relative exactly when it has a column reference. -/
theorem referencesColumn_eq : (e : Expr) → referencesColumn e = !(columnRefs e).isEmpty
  | .column _ _ => rfl
  | .literal _ => rfl
  | .cmp _ lhs rhs => by
    rw [referencesColumn, columnRefs, referencesColumn_eq lhs, referencesColumn_eq rhs]
    rw [nonempty_append]
  | .arith _ lhs rhs => by
    rw [referencesColumn, columnRefs, referencesColumn_eq lhs, referencesColumn_eq rhs]
    rw [nonempty_append]
  | .nullIf lhs rhs => by
    rw [referencesColumn, columnRefs, referencesColumn_eq lhs, referencesColumn_eq rhs]
    rw [nonempty_append]
  | .and items => anyReferences_eq items
  | .or items => anyReferences_eq items
  | .coalesce items => anyReferences_eq items
  | .not inner => referencesColumn_eq inner
  | .isNull inner => referencesColumn_eq inner
  | .isNotNull inner => referencesColumn_eq inner
  | .agg _ arg => referencesColumn_eq arg
  | .cast expr _ => referencesColumn_eq expr
  | .like expr _ _ => referencesColumn_eq expr
  | .between expr lo hi => by
    rw [referencesColumn, columnRefs, referencesColumn_eq expr, referencesColumn_eq lo,
      referencesColumn_eq hi]
    rw [nonempty_append, nonempty_append]
  | .inList expr list => by
    rw [referencesColumn, columnRefs, referencesColumn_eq expr, anyReferences_eq list]
    rw [nonempty_append]

theorem anyReferences_eq : (es : List Expr) → anyReferences es = !(columnRefsAll es).isEmpty
  | [] => rfl
  | item :: items => by
    rw [anyReferences, columnRefsAll, referencesColumn_eq item, anyReferences_eq items]
    rw [nonempty_append]

end

/-- A reference resolves to a visible column. -/
theorem resolveFrom_visible {qualifier : Option String} {column : String} {slots : List Slot}
    {hit : Option FieldType} {ty : FieldType}
    (h : RowType.resolveFrom qualifier column hit slots = .ok ty) :
    hit.isSome = true ∨ ∃ slot ∈ slots, slot.column.named qualifier column = true := by
  induction slots generalizing hit with
  | nil =>
    cases hit with
    | none => cases h
    | some t => exact .inl rfl
  | cons slot slots ih =>
    rw [RowType.resolveFrom] at h
    split at h
    · next hnamed => exact .inr ⟨slot, List.mem_cons_self .., hnamed⟩
    · rcases ih h with hhit | ⟨slot', hmem, hnamed⟩
      · exact .inl hhit
      · exact .inr ⟨slot', List.mem_cons_of_mem _ hmem, hnamed⟩

/-- Every reference of the list is to a visible column. -/
def RefsVisible (row : RowType) (refs : List (Option String × String)) : Prop :=
  ∀ ref ∈ refs, ∃ slot ∈ row.slots, slot.column.named ref.1 ref.2 = true

theorem RefsVisible.append {row : RowType} {refs refs' : List (Option String × String)}
    (h : RefsVisible row refs) (h' : RefsVisible row refs') : RefsVisible row (refs ++ refs') :=
  List.forall_mem_append.2 ⟨h, h'⟩

mutual

/-- A typed expression only reads visible columns. -/
theorem checkExpr_visible {row : RowType} : (e : Expr) → {ty : FieldType} →
    checkExpr row e = .ok ty → RefsVisible row (columnRefs e)
  | .column table column, ty, h => by
    rw [checkExpr] at h
    intro ref href
    cases List.mem_singleton.1 href
    -- a reference that resolves is visible; the search starts with nothing found
    exact (resolveFrom_visible h).resolve_left Bool.noConfusion
  | .literal _, ty, h => fun ref href => absurd href List.not_mem_nil
  | .cmp _ lhs rhs, ty, h => by
    rw [checkExpr] at h
    obtain ⟨l, hl, h⟩ := Result.bind_eq_ok.1 h
    obtain ⟨r, hr, -⟩ := Result.bind_eq_ok.1 h
    exact (checkExpr_visible lhs hl).append (checkExpr_visible rhs hr)
  | .arith _ lhs rhs, ty, h => by
    rw [checkExpr] at h
    obtain ⟨l, hl, h⟩ := Result.bind_eq_ok.1 h
    obtain ⟨r, hr, -⟩ := Result.bind_eq_ok.1 h
    exact (checkExpr_visible lhs hl).append (checkExpr_visible rhs hr)
  | .nullIf lhs rhs, ty, h => by
    rw [checkExpr] at h
    obtain ⟨l, hl, h⟩ := Result.bind_eq_ok.1 h
    obtain ⟨r, hr, -⟩ := Result.bind_eq_ok.1 h
    exact (checkExpr_visible lhs hl).append (checkExpr_visible rhs hr)
  | .and items, ty, h => checkBools_visible items (by rwa [checkExpr] at h)
  | .or items, ty, h => checkBools_visible items (by rwa [checkExpr] at h)
  | .coalesce items, ty, h => checkCoalesce_visible items (by rwa [checkExpr] at h)
  | .not inner, ty, h => by
    rw [checkExpr] at h
    obtain ⟨t, ht, -⟩ := Result.bind_eq_ok.1 h
    exact checkExpr_visible inner ht
  | .isNull inner, ty, h => by
    rw [checkExpr] at h
    obtain ⟨t, ht, -⟩ := Result.bind_eq_ok.1 h
    exact checkExpr_visible inner ht
  | .isNotNull inner, ty, h => by
    rw [checkExpr] at h
    obtain ⟨t, ht, -⟩ := Result.bind_eq_ok.1 h
    exact checkExpr_visible inner ht
  | .agg _ _, ty, h => by
    rw [checkExpr] at h
    cases h
  | .cast expr _, ty, h => by
    rw [checkExpr] at h
    obtain ⟨t, ht, -⟩ := Result.bind_eq_ok.1 h
    exact checkExpr_visible expr ht
  | .like expr _ _, ty, h => by
    rw [checkExpr] at h
    obtain ⟨t, ht, -⟩ := Result.bind_eq_ok.1 h
    exact checkExpr_visible expr ht
  | .between expr lo hi, ty, h => by
    rw [checkExpr] at h
    obtain ⟨t, ht, h⟩ := Result.bind_eq_ok.1 h
    obtain ⟨l, hl, h⟩ := Result.bind_eq_ok.1 h
    obtain ⟨u, hu, -⟩ := Result.bind_eq_ok.1 h
    exact ((checkExpr_visible expr ht).append (checkExpr_visible lo hl)).append
      (checkExpr_visible hi hu)
  | .inList expr list, ty, h => by
    rw [checkExpr] at h
    obtain ⟨t, ht, h⟩ := Result.bind_eq_ok.1 h
    exact (checkExpr_visible expr ht).append (checkIn_visible list h)

theorem checkBools_visible {row : RowType} : (es : List Expr) → {nullable : Bool} →
    {ty : FieldType} → checkBools row nullable es = .ok ty → RefsVisible row (columnRefsAll es)
  | [], _, _, _ => fun ref href => absurd href List.not_mem_nil
  | item :: items, nullable, ty, h => by
    rw [checkBools] at h
    obtain ⟨t, ht, h⟩ := Result.bind_eq_ok.1 h
    obtain ⟨_, -, h⟩ := Result.bind_eq_ok.1 h
    exact (checkExpr_visible item ht).append (checkBools_visible items h)

theorem checkIn_visible {row : RowType} : (es : List Expr) → {kind : Option TypeKind} →
    {nullable : Bool} → {ty : FieldType} → checkIn row kind nullable es = .ok ty →
    RefsVisible row (columnRefsAll es)
  | [], _, _, _, _ => fun ref href => absurd href List.not_mem_nil
  | item :: items, kind, nullable, ty, h => by
    rw [checkIn] at h
    obtain ⟨t, ht, h⟩ := Result.bind_eq_ok.1 h
    obtain ⟨_, -, h⟩ := Result.bind_eq_ok.1 h
    exact (checkExpr_visible item ht).append (checkIn_visible items h)

theorem checkCoalesce_visible {row : RowType} : (es : List Expr) → {kind : Option TypeKind} →
    {nullable : Bool} → {ty : FieldType} → checkCoalesce row kind nullable es = .ok ty →
    RefsVisible row (columnRefsAll es)
  | [], _, _, _, _ => fun ref href => absurd href List.not_mem_nil
  | item :: items, kind, nullable, ty, h => by
    rw [checkCoalesce] at h
    obtain ⟨t, ht, h⟩ := Result.bind_eq_ok.1 h
    obtain ⟨k, -, h⟩ := Result.bind_eq_ok.1 h
    exact (checkExpr_visible item ht).append (checkCoalesce_visible items h)

end

/-- A relative expression that is typed by a table reads one of its columns. -/
theorem reads_of_referencesColumn {d : TableDef} {e : Expr} {ty : FieldType}
    (hty : checkExpr (.ofTable d d.name) e = .ok ty) (h : referencesColumn e = true) :
    ∃ c ∈ d.columns, Reads d e c.name := by
  rw [referencesColumn_eq] at h
  cases hrefs : columnRefs e with
  | nil =>
    rw [hrefs] at h
    cases h
  | cons ref refs =>
    have hmem : ref ∈ columnRefs e := by
      rw [hrefs]
      exact List.mem_cons_self ..
    obtain ⟨slot, hslot, hnamed⟩ := checkExpr_visible e hty ref hmem
    obtain ⟨⟨col, i⟩, hcol, rfl⟩ := List.mem_map.1 hslot
    have hin : col ∈ d.columns := by
      obtain ⟨-, -, hget⟩ := List.mem_zipIdx hcol
      rw [hget]
      exact List.getElem_mem _
    obtain ⟨table, column⟩ := ref
    rw [BoundColumn.named, Bool.and_eq_true_iff, Bool.or_eq_true_iff] at hnamed
    obtain ⟨hname, htable⟩ := hnamed
    have hname : col.name = column := of_decide_eq_true hname
    refine ⟨col, hin, table, hname ▸ hmem, ?_⟩
    rcases htable with hnone | hsome
    · exact .inl (Option.isNone_iff_eq_none.1 hnone)
    · exact .inr (eq_of_beq hsome).symm

/-! ## What validation ensures -/

/-- An update that was validated against a definition: its columns are there, and the rule
holds. -/
structure Cleared (update : Update) (d : TableDef) : Prop where
  columns : ∀ e ∈ update.set, ∃ col ∈ d.columns, col.name = e.1
  rule : GuardRule update d

/-- A definition that guards no assigned column clears the update. -/
theorem cleared_of_unguarded {update : Update} {d : TableDef}
    (hdistinct : d.columns.Pairwise (fun a b => a.name ≠ b.name))
    (h : ∀ e ∈ update.set, ∃ col ∈ d.columns, col.name = e.1 ∧ col.update ≠ .guarded) :
    Cleared update d := by
  constructor
  · intro e he
    obtain ⟨col, hcol, hname, -⟩ := h e he
    exact ⟨col, hcol, hname⟩
  · intro e he col hcol hname hguarded
    obtain ⟨col', hcol', hname', hfree⟩ := h e he
    cases TableDef.column_unique hdistinct hcol hcol' (hname.trans hname'.symm)
    exact absurd hguarded hfree

/-- An update stays cleared while columns are only added. -/
theorem Cleared.extended {update : Update} {d d' : TableDef} (h : Cleared update d)
    (hd : ExtendedBy d d') (hdistinct : d'.columns.Pairwise (fun a b => a.name ≠ b.name)) :
    Cleared update d' := by
  obtain ⟨hname, cols, hcols⟩ := id hd
  constructor
  · intro e he
    obtain ⟨col, hcol, hcolname⟩ := h.columns e he
    exact ⟨col, by rw [hcols]; exact List.mem_append_left _ hcol, hcolname⟩
  · intro e he col hcol hcolname hguarded hblind
    obtain ⟨col', hcol', hname'⟩ := h.columns e he
    have hmem : col' ∈ d'.columns := by
      rw [hcols]
      exact List.mem_append_left _ hcol'
    -- the assigned column is the one the update was validated with
    have hsame : col = col' :=
      TableDef.column_unique hdistinct hcol hmem (hcolname.trans hname'.symm)
    subst hsame
    obtain ⟨pred, hpred, hguard⟩ := h.rule e he col hcol' hcolname hguarded hblind
    exact ⟨pred, hpred, hasGuardPredicate_mono hd pred hguard⟩

theorem column_eq_ok {d : TableDef} {name : String} {col : ColumnDef}
    (h : column d name = .ok col) : col ∈ d.columns ∧ col.name = name := by
  rw [column] at h
  cases hi : d.colIndex name with
  | none =>
    rw [hi] at h
    cases h
  | some i =>
    obtain ⟨col', hcol', hname⟩ := TableDef.colIndex_eq_some hi
    rw [hi, Option.bind_some, hcol'] at h
    cases h
    exact ⟨List.mem_of_getElem? hcol', hname⟩

/-- A guard condition was found in a `where`. -/
theorem guardedBy_eq_true {d : TableDef} {selector : Option Selector} {s : Selector}
    (hs : checkSelector d selector = .ok s) (h : guardedBy d s = true) :
    ∃ pred, selector = some (.where_ pred) ∧ hasGuardPredicate d pred = true := by
  cases selector with
  | none => cases hs
  | some sel =>
    cases sel with
    | all =>
      cases hs
      cases h
    | where_ pred =>
      obtain ⟨_, -, hs⟩ := Result.bind_eq_ok.1 hs
      cases hs
      exact ⟨pred, rfl, h⟩

/-- A set that passes names a column, and a guarded column is set relative or under a guard. -/
theorem checkSet_eq_ok {d : TableDef} {guarded unconditional : Bool} {name : String} {expr : Expr}
    (h : checkSet d guarded unconditional name expr = .ok ()) :
    ∃ col ∈ d.columns, col.name = name ∧
      (col.update = .guarded → referencesColumn expr = false → guarded = true) := by
  obtain ⟨col, hcol, h⟩ := Result.bind_eq_ok.1 h
  obtain ⟨hmem, hname⟩ := column_eq_ok hcol
  refine ⟨col, hmem, hname, ?_⟩
  obtain ⟨-, h⟩ := Result.guard_eq_ok.1 h
  obtain ⟨_, -, h⟩ := Result.bind_eq_ok.1 h
  obtain ⟨ty, -, h⟩ := Result.bind_eq_ok.1 h
  obtain ⟨_, -, h⟩ := Result.bind_eq_ok.1 h
  obtain ⟨hblind, -⟩ := Result.guard_eq_ok.1 h
  intro hpolicy hrelative
  cases guarded with
  | true => rfl
  | false => simp [hpolicy, hrelative] at hblind

/-- A table that is looked up is in the schema. -/
theorem lookup_eq_ok {schema : SchemaView} {table : String} {d : TableDef}
    (h : lookup schema table = .ok d) : schema table = .ok (some d) := by
  obtain ⟨found, hfound, h⟩ := Result.bind_eq_ok.1 h
  cases hs : schema table with
  | error e =>
    rw [hs] at hfound
    cases hfound
  | ok d' =>
    rw [hs] at hfound
    cases hfound
    cases found with
    | none => cases h
    | some d' =>
      cases h
      rfl

/-- An update that validates names a table and clears each of its columns. -/
theorem validateUpdate_eq_ok {update : Update} {schema : SchemaView}
    (h : validateUpdate update schema = .ok ()) :
    ∃ d, schema update.table = .ok (some d) ∧
      (d.columns.Pairwise (fun a b => a.name ≠ b.name) → Cleared update d) := by
  obtain ⟨d, hd, h⟩ := Result.bind_eq_ok.1 h
  obtain ⟨selector, hselector, h⟩ := Result.bind_eq_ok.1 h
  have hsets := Result.forM_eq_ok.1 h
  refine ⟨d, lookup_eq_ok hd, fun hdistinct => ⟨?_, ?_⟩⟩
  · intro e he
    obtain ⟨col, hcol, hname, -⟩ := checkSet_eq_ok (hsets e he)
    exact ⟨col, hcol, hname⟩
  · intro e he col hcol hname hpolicy hrelative
    obtain ⟨col', hcol', hname', hguard⟩ := checkSet_eq_ok (hsets e he)
    rw [TableDef.column_unique hdistinct hcol hcol' (hname.trans hname'.symm)] at hpolicy
    exact guardedBy_eq_true hselector (hguard hpolicy hrelative)

/-- The rule for the assignments of an update, by what counts as a relative expression for a
column: a guarded column takes such an expression or the selector has a guard, and the update is
not unconditional. -/
def SetRule (relative : Expr → String → Prop) (update : Update) (d : TableDef) : Prop :=
  ∀ e ∈ update.set, ∀ col, column d e.1 = .ok col → col.update = .guarded →
    (relative e.2 e.1 ∨ ∃ pred, update.selector = some (.where_ pred) ∧ Guarding d pred) ∧
      update.unconditional = false

/-- A guarded column is set relative or under a guard. -/
theorem checkSet_guarded {d : TableDef} {guarded unconditional : Bool} {name : String}
    {expr : Expr} (h : checkSet d guarded unconditional name expr = .ok ()) {col : ColumnDef}
    (hcol : column d name = .ok col) (hpolicy : col.update = .guarded) :
    ((∃ c ∈ d.columns, Reads d expr c.name) ∨ guarded = true) ∧ unconditional = false := by
  obtain ⟨col', hcol', h⟩ := Result.bind_eq_ok.1 h
  rw [hcol] at hcol'
  cases hcol'
  obtain ⟨-, h⟩ := Result.guard_eq_ok.1 h
  obtain ⟨_, -, h⟩ := Result.bind_eq_ok.1 h
  obtain ⟨ty, hty, h⟩ := Result.bind_eq_ok.1 h
  obtain ⟨_, -, h⟩ := Result.bind_eq_ok.1 h
  obtain ⟨hblind, -⟩ := Result.guard_eq_ok.1 h
  simp only [hpolicy, decide_true, Bool.true_and, Bool.or_eq_true_iff, Bool.and_eq_true_iff,
    Bool.not_eq_true', not_or, not_and_or, Bool.not_eq_true, Bool.not_eq_false] at hblind
  obtain ⟨hunconditional, hrelative⟩ := hblind
  exact ⟨hrelative.imp_left (reads_of_referencesColumn hty), hunconditional⟩

/-- **The static rule.** An accepted update assigns a guarded column an expression that reads a
column of the row, or has a guard in its selector, and is never unconditional. -/
theorem validated_update_is_guarded {update : Update} {schema : SchemaView}
    (h : validateUpdate update schema = .ok ()) :
    ∃ d, schema update.table = .ok (some d) ∧
      SetRule (fun e _ => ∃ c ∈ d.columns, Reads d e c.name) update d := by
  obtain ⟨d, hd, h⟩ := Result.bind_eq_ok.1 h
  obtain ⟨selector, hselector, h⟩ := Result.bind_eq_ok.1 h
  refine ⟨d, lookup_eq_ok hd, fun e he col hcol hpolicy => ?_⟩
  obtain ⟨hrelative, hunconditional⟩ :=
    checkSet_guarded (Result.forM_eq_ok.1 h e he) hcol hpolicy
  refine ⟨hrelative.imp_right fun hguard => ?_, hunconditional⟩
  obtain ⟨pred, hpred, hguard⟩ := guardedBy_eq_true hselector hguard
  exact ⟨pred, hpred, hasGuardPredicate_eq_true pred hguard⟩

/-- Accounts with a balance under some update policy. -/
def accountsDef (policy : UpdatePolicy) : TableDef :=
  ⟨"accounts", [ColumnDef.new "id" .i64, { ColumnDef.new "balance" .i64 with update := policy }],
    ["id"], [], [], []⟩

/-- The balances are set to a function of the row. -/
def rowSet (e : Expr) : Update := ⟨"accounts", some .all, [("balance", e)], false⟩

/-- A schema with the accounts only. -/
def accountsSchema : SchemaView := fun table =>
  if table = "accounts" then .ok (some (accountsDef .guarded)) else .ok none

/-- A withdrawal is accepted, and reads the balance. -/
theorem validated_update_is_guarded_withdrawal :
    ∃ d, accountsSchema "accounts" = .ok (some d) ∧
      SetRule (fun e _ => ∃ c ∈ d.columns, Reads d e c.name)
        (rowSet (.arith .sub (.column none "balance") (.literal (.i64 1)))) d := by
  have haccepted : validateUpdate
      (rowSet (.arith .sub (.column none "balance") (.literal (.i64 1)))) accountsSchema = .ok () :=
    by decide +kernel
  exact validated_update_is_guarded haccepted

/-- An expression that only reads another column counts as relative: the balances may be set to
the ids. -/
theorem other_column_counts_as_relative :
    validateUpdate (rowSet (.column none "id")) accountsSchema = .ok () ∧
      accountsSchema "accounts" = .ok (some (accountsDef .guarded)) ∧
      ¬ SetRule (Reads (accountsDef .guarded)) (rowSet (.column none "id"))
        (accountsDef .guarded) := by
  refine ⟨by decide +kernel, rfl, fun hrule => ?_⟩
  obtain ⟨⟨table, hmem, -⟩ | ⟨pred, hpred, -⟩, -⟩ := hrule ("balance", .column none "id")
    (List.mem_singleton.2 rfl) { ColumnDef.new "balance" .i64 with update := .guarded }
    (by decide +kernel) rfl
  · have hname : "balance" = "id" := congrArg Prod.snd (List.mem_singleton.1 hmem)
    exact absurd hname (by decide)
  · cases hpred

/-! ## The server -/

/-- The committed catalog, and the requests that were validated and wait for the writer. -/
structure Server where
  cat : CatState
  waiting : List Request

/-- What a step of the server does. -/
inductive Label where
  | ask (request : Request)
  | define (op : JobOp)
  | serve (request : Request) (envs : Nat → Env) (fuel : Nat)
  | refuse (request : Request)

/-- One step: a client's request is validated against a snapshot and queued, a definition job
commits, a queued request commits, or one leaves without effect. -/
inductive Step (fx : Intrinsics) : Server → Label → Server → Prop
  | ask {sv : Server} {request : Request} {out : Validated}
      (hv : validate (schemaOf sv.cat.snapshot) request = .ok out) :
      Step fx sv (.ask request) { sv with waiting := sv.waiting ++ [request] }
  | define {sv : Server} {op : JobOp} {envs : Nat → Env} {fuel : Nat} {out : JobOut}
      {cat : CatState} (hop : op.isDefinition = true)
      (hc : apply envs fuel sv.cat op = .ok (out, cat)) :
      Step fx sv (.define op) { sv with cat }
  | serve {sv : Server} {i : Nat} {request : Request} {op : JobOp} {envs : Nat → Env}
      {fuel : Nat} {out : JobOut} {cat : CatState} (hi : sv.waiting[i]? = some request)
      (hop : requestJob fx request = some op) (hc : apply envs fuel sv.cat op = .ok (out, cat)) :
      Step fx sv (.serve request envs fuel) ⟨cat, sv.waiting.eraseIdx i⟩
  | refuse {sv : Server} {i : Nat} {request : Request} (hi : sv.waiting[i]? = some request) :
      Step fx sv (.refuse request) { sv with waiting := sv.waiting.eraseIdx i }

/-- The servers that steps meeting a condition lead to from an empty one. -/
inductive Reaches (fx : Intrinsics) (C : Server → Label → Prop) : Server → Prop
  | start : Reaches fx C ⟨.empty, []⟩
  | step {sv sv' : Server} {l : Label} (hr : Reaches fx C sv) (hC : C sv l)
      (hs : Step fx sv l sv') : Reaches fx C sv'

/-- The updates a request holds. -/
def updatesOf : Request → List Update
  | .update upd => [upd]
  | .transaction ops => ops.filterMap (fun op =>
    match op with
    | .update upd => some upd
    | _ => none)
  | _ => []

/-- An update of a transaction, and the state the writer applies it to: the one the writes
before it left. -/
def AppliesFrom (fx : Intrinsics) (envs : Nat → Env) (fuel : Nat) :
    Nat → CatState → List Request → Update → CatState → Prop
  | _, _, [], _, _ => False
  | i, s, op :: ops, upd, at_ => (op = .update upd ∧ at_ = s) ∨
    ∃ spec count s', writeSpec fx op = some spec ∧
      applySpec (envs i) fuel s spec = .ok (count, s') ∧
      AppliesFrom fx envs fuel (i + 1) s' ops upd at_

/-- An update of a request, and the state the writer applies it to. -/
def Applies (fx : Intrinsics) (envs : Nat → Env) (fuel : Nat) (s : CatState) :
    Request → Update → CatState → Prop
  | .update upd', upd, at_ => upd' = upd ∧ at_ = s
  | .transaction ops, upd, at_ => AppliesFrom fx envs fuel 0 s ops upd at_
  | _, _, _ => False

/-- No table is created while a request that updates a table of that name waits, unless it has
the columns that the update assigns and guards none of them. -/
def KeepsTables (sv : Server) (l : Label) : Prop :=
  ∀ def_, l = .define (.createTable def_) → ∀ request ∈ sv.waiting,
    ∀ upd ∈ updatesOf request, upd.table = def_.name →
      ∀ e ∈ upd.set, ∃ col ∈ def_.columns, col.name = e.1 ∧ col.update ≠ .guarded

/-! ## The invariant -/

/-- Every update that waits is cleared for the table there is. -/
structure Server.Sound (sv : Server) : Prop where
  wellFormed : sv.cat.WellFormed
  cleared : ∀ request ∈ sv.waiting, ∀ upd ∈ updatesOf request, ∀ image,
    OrdMap.find upd.table sv.cat.tables = some image → Cleared upd image.def_

theorem CatSnapshot.image_eq_ok {s : CatState} {table : String} {image : TableImage}
    (h : s.snapshot.image table = .ok image) : OrdMap.find table s.tables = some image := by
  rw [CatSnapshot.image, okOr_eq_ok, CatState.snapshot] at h
  exact (OrdMap.lookup_eq_find table s.tables).symm.trans h

/-- The schema of a state lists its tables with their definitions. -/
theorem schemaOf_eq_some {s : CatState} {table : String} {d : TableDef}
    (h : schemaOf s.snapshot table = .ok (some d)) :
    ∃ image, OrdMap.find table s.tables = some image ∧ image.def_ = d := by
  rw [schemaOf] at h
  split at h
  · next d' hd =>
    cases h
    obtain ⟨image, himage, hd⟩ := Result.bind_eq_ok.1 hd
    cases hd
    exact ⟨image, CatSnapshot.image_eq_ok himage, rfl⟩
  · cases h
  · cases h

/-- A validated update is cleared for the table it was validated against. -/
theorem cleared_of_validateUpdate {s : CatState} {upd : Update} (hs : s.WellFormed)
    (h : validateUpdate upd (schemaOf s.snapshot) = .ok ()) {image : TableImage}
    (himage : OrdMap.find upd.table s.tables = some image) : Cleared upd image.def_ := by
  obtain ⟨d, hd, hclear⟩ := validateUpdate_eq_ok h
  obtain ⟨image', himage', rfl⟩ := schemaOf_eq_some hd
  cases himage.symm.trans himage'
  exact hclear (hs.tables _ _ himage).def_.distinct

/-- In a transaction that validates, every update does. -/
theorem validate_update_mem {schema : SchemaView} {ops : List Request} {upd : Update}
    (h : validateOps schema ops = .ok ()) (hmem : Request.update upd ∈ ops) :
    validateUpdate upd schema = .ok () := by
  induction ops with
  | nil => cases hmem
  | cons op ops ih =>
    rw [validateOps] at h
    obtain ⟨out, hop, h⟩ := Result.bind_eq_ok.1 h
    rcases List.mem_cons.1 hmem with rfl | hmem
    · rw [validate] at hop
      obtain ⟨⟨⟩, hupd, -⟩ := Result.bind_eq_ok.1 hop
      exact hupd
    · exact ih h hmem

/-- Every update of a validated request was validated. -/
theorem validate_updatesOf {schema : SchemaView} {request : Request} {out : Validated}
    (h : validate schema request = .ok out) {upd : Update} (hupd : upd ∈ updatesOf request) :
    validateUpdate upd schema = .ok () := by
  cases request with
  | update upd' =>
    rw [List.mem_singleton.1 hupd]
    rw [validate] at h
    obtain ⟨⟨⟩, h, -⟩ := Result.bind_eq_ok.1 h
    exact h
  | transaction ops =>
    rw [validate] at h
    obtain ⟨⟨⟩, h, -⟩ := Result.bind_eq_ok.1 h
    obtain ⟨op, hop, hsome⟩ := List.mem_filterMap.1 hupd
    split at hsome
    · cases hsome
      exact validate_update_mem h hop
    · cases hsome
  | _ => cases hupd

/-- A definition job creates a table or leaves one that only gained columns. -/
theorem define_extends {envs : Nat → Env} {fuel : Nat} {s s' : CatState} {op : JobOp}
    {out : JobOut} (hop : op.isDefinition = true) (h : apply envs fuel s op = .ok (out, s'))
    {t : String} {b : TableImage} (hb : OrdMap.find t s'.tables = some b) :
    (∃ a, OrdMap.find t s.tables = some a ∧ ExtendedBy a.def_ b.def_) ∨
      ∃ def_, op = .createTable def_ ∧ t = def_.name ∧ b.def_.columns = def_.columns := by
  -- a table put in the place of another
  have hstore : ∀ {table : String} {a image : TableImage},
      OrdMap.find t (s.store table image).tables = some b →
      OrdMap.find table s.tables = some a → ExtendedBy a.def_ image.def_ →
      ∃ a, OrdMap.find t s.tables = some a ∧ ExtendedBy a.def_ b.def_ := by
    intro table a image hfind ha hext
    rw [CatState.store, OrdMap.find_insert] at hfind
    split at hfind
    · next ht =>
      cases hfind
      exact ⟨a, ht ▸ ha, hext⟩
    · exact ⟨b, hfind, .refl _⟩
  cases op with
  | createTable def_ =>
    obtain ⟨s₁, h, hout⟩ := Result.bind_eq_ok.1 h
    cases hout
    obtain ⟨-, -, -, htables⟩ := createTable_eq_ok h
    rw [htables, OrdMap.find_insert] at hb
    split at hb
    · next ht =>
      cases hb
      exact .inr ⟨def_, rfl, ht.symm, rfl⟩
    · exact .inl ⟨b, hb, .refl _⟩
  | dropTable table =>
    obtain ⟨s₁, h, hout⟩ := Result.bind_eq_ok.1 h
    cases hout
    obtain ⟨-, htables⟩ := dropTable_eq_ok h
    rw [htables, OrdMap.find_erase] at hb
    split at hb
    · cases hb
    · exact .inl ⟨b, hb, .refl _⟩
  | addColumn table column =>
    obtain ⟨s₁, h, hout⟩ := Result.bind_eq_ok.1 h
    cases hout
    obtain ⟨image, backfills, image', himage, -, -, -, -, hfold, rfl⟩ := addColumn_eq_ok h
    refine .inl (hstore hb himage ?_)
    rw [(applyBackfills_eq_ok hfold).1]
    exact ⟨rfl, [column], rfl⟩
  | createIndex table index =>
    obtain ⟨s₁, h, hout⟩ := Result.bind_eq_ok.1 h
    cases hout
    obtain ⟨image, entries, tree, himage, -, -, -, -, rfl⟩ := createIndex_eq_ok h
    exact .inl (hstore hb himage ⟨rfl, [], (List.append_nil _).symm⟩)
  | dropIndex table index =>
    obtain ⟨s₁, h, hout⟩ := Result.bind_eq_ok.1 h
    cases hout
    obtain ⟨image, pos, himage, -, -, rfl⟩ := dropIndex_eq_ok h
    exact .inl (hstore hb himage ⟨rfl, [], (List.append_nil _).symm⟩)
  | _ => cases hop

/-- Requests are no definition jobs. -/
theorem requestJob_isDefinition {fx : Intrinsics} {request : Request} {op : JobOp}
    (h : requestJob fx request = some op) : op.isDefinition = false := by
  cases request with
  | transaction ops =>
    obtain ⟨specs, -, rfl⟩ := Option.map_eq_some_iff.1 h
    rfl
  | select sel => cases h
  | explain sel => cases h
  | _ =>
    cases h
    rfl

theorem define_wellFormed {envs : Nat → Env} {fuel : Nat} {s s' : CatState} {op : JobOp}
    {out : JobOut} (hop : op.isDefinition = true) (h : apply envs fuel s op = .ok (out, s'))
    (hs : s.WellFormed) : s'.WellFormed := by
  refine wellFormed_kept (C := fun _ _ _ _ => True) envs fuel s op out s' ?_ trivial h hs
  rintro specs rfl
  cases hop

/-- One step keeps the waiting updates cleared, unless it creates their table with a guarded
column. -/
theorem Step.sound {fx : Intrinsics} {sv sv' : Server} {l : Label} (hC : KeepsTables sv l)
    (h : Step fx sv l sv') (hs : sv.Sound) : sv'.Sound := by
  obtain ⟨hw, hc⟩ := hs
  cases h with
  | @ask request out hv =>
    refine ⟨hw, ?_⟩
    intro r hr upd hupd image himage
    rcases List.mem_append.1 hr with hr | hr
    · exact hc r hr upd hupd image himage
    · rw [List.mem_singleton.1 hr] at hupd
      exact cleared_of_validateUpdate hw (validate_updatesOf hv hupd) himage
  | @define op envs fuel out cat hop happly =>
    have hw' := define_wellFormed hop happly hw
    refine ⟨hw', ?_⟩
    intro r hr upd hupd image himage
    have hdistinct := (hw'.tables _ _ himage).def_.distinct
    rcases define_extends hop happly himage with ⟨a, ha, hext⟩ | ⟨def_, rfl, ht, hcolumns⟩
    · exact (hc r hr upd hupd a ha).extended hext hdistinct
    · refine cleared_of_unguarded hdistinct ?_
      rw [hcolumns]
      exact hC def_ rfl r hr upd hupd ht
  | @serve i request op envs fuel out cat hi hop happly =>
    have hedit := apply_edited (requestJob_isDefinition hop) happly
    refine ⟨hw.edited hedit, ?_⟩
    intro r hr upd hupd image himage
    obtain ⟨a, ha, hab⟩ := hedit.back himage
    rw [hab.def_eq]
    exact hc r (List.mem_of_mem_eraseIdx hr) upd hupd a ha
  | @refuse i request hi =>
    refine ⟨hw, ?_⟩
    intro r hr
    exact hc r (List.mem_of_mem_eraseIdx hr)

theorem Reaches.sound {fx : Intrinsics} {sv : Server} (h : Reaches fx KeepsTables sv) :
    sv.Sound := by
  induction h with
  | start => exact ⟨.empty, fun r hr => absurd hr List.not_mem_nil⟩
  | step _ hC hs ih => exact hs.sound hC ih

/-- The writes before an update of a transaction keep the definitions. -/
theorem AppliesFrom.edited {fx : Intrinsics} {envs : Nat → Env} {fuel i : Nat} {s at_ : CatState}
    {ops : List Request} {upd : Update} (h : AppliesFrom fx envs fuel i s ops upd at_) :
    Request.update upd ∈ ops ∧ s.Edited (fun _ _ _ => True) at_ := by
  induction ops generalizing i s with
  | nil => cases h
  | cons op ops ih =>
    rcases h with ⟨rfl, rfl⟩ | ⟨spec, count, s', -, hspec, h⟩
    · exact ⟨by simp, .refl _⟩
    · obtain ⟨hmem, hedit⟩ := ih h
      exact ⟨List.mem_cons_of_mem _ hmem, (applySpec_edited hspec).trans hedit⟩

/-- An update that applies is one of the request, over a state its earlier operations edited. -/
theorem Applies.edited {fx : Intrinsics} {envs : Nat → Env} {fuel : Nat} {s at_ : CatState}
    {request : Request} {upd : Update} (h : Applies fx envs fuel s request upd at_) :
    upd ∈ updatesOf request ∧ s.Edited (fun _ _ _ => True) at_ := by
  cases request with
  | update upd' =>
    obtain ⟨rfl, rfl⟩ := h
    exact ⟨List.mem_singleton.2 rfl, .refl _⟩
  | transaction ops =>
    obtain ⟨hmem, hedit⟩ := AppliesFrom.edited h
    exact ⟨List.mem_filterMap.2 ⟨_, hmem, rfl⟩, hedit⟩
  | _ => cases h

/-- In every interleaving in which no table is created under a waiting update of its name, or
none that guards what the update assigns, every update the writer commits satisfies the rule by
the definition in force. -/
theorem committed_updates_are_guarded {fx : Intrinsics} {sv sv' : Server} {request : Request}
    {envs : Nat → Env} {fuel : Nat} (h : Reaches fx KeepsTables sv)
    (hs : Step fx sv (.serve request envs fuel) sv') :
    ∀ upd at_ image, Applies fx envs fuel sv.cat request upd at_ →
      OrdMap.find upd.table at_.tables = some image → GuardRule upd image.def_ := by
  intro upd at_ image happlies himage
  obtain ⟨hupd, hedit⟩ := happlies.edited
  obtain ⟨a, ha, hab⟩ := hedit.back himage
  cases hs with
  | @serve i request op envs fuel out cat hi hop happly =>
    rw [hab.def_eq]
    exact (h.sound.cleared request (List.mem_of_getElem? hi) upd hupd a ha).rule

/-! ### A table that is created again -/

/-- The state after a job. -/
def stateAfter (op : JobOp) (s : CatState) : CatState :=
  ((apply (fun _ => tickingEnv 0) 0 s op).toOption.map Prod.snd).getD s

theorem apply_stateAfter (op : JobOp) (s : CatState)
    (h : (apply (fun _ => tickingEnv 0) 0 s op).toOption.isSome = true) :
    ∃ out, apply (fun _ => tickingEnv 0) 0 s op = .ok (out, stateAfter op s) := by
  cases hr : apply (fun _ => tickingEnv 0) 0 s op with
  | error e =>
    rw [hr] at h
    cases h
  | ok r =>
    refine ⟨r.1, ?_⟩
    rw [stateAfter, hr]
    rfl

/-- Every balance is set to five. -/
def blindSet : Update := ⟨"accounts", some .all, [("balance", .literal (.i64 5))], false⟩

/-- One account. -/
def oneAccount : Insert := ⟨"accounts", [[("id", .i64 1), ("balance", .i64 9)]]⟩

def freeAccounts : CatState := stateAfter (.createTable (accountsDef .free)) .empty

def noAccounts : CatState := stateAfter (.dropTable "accounts") freeAccounts

def guardedAccounts : CatState := stateAfter (.createTable (accountsDef .guarded)) noAccounts

def filledAccounts : CatState :=
  stateAfter (.insert "accounts" oneAccount.rows) guardedAccounts

/-- The server on which a blind set of a free column waits. -/
theorem reaches_freeAccounts {C : Server → Label → Prop}
    (hC : C ⟨.empty, []⟩ (.define (.createTable (accountsDef .free))))
    (hC' : C ⟨freeAccounts, []⟩ (.ask (.update blindSet))) :
    Reaches integerIntrinsics C ⟨freeAccounts, [.update blindSet]⟩ := by
  obtain ⟨out, hcreate⟩ := apply_stateAfter (.createTable (accountsDef .free)) .empty
    (by decide +kernel)
  have hvalid : validate (schemaOf freeAccounts.snapshot) (.update blindSet) = .ok .write := by
    decide +kernel
  exact (Reaches.start.step hC (.define rfl hcreate)).step hC' (.ask hvalid)

/-- A blind set of a free column is committed, and satisfies the rule. -/
theorem committed_updates_are_guarded_accounts :
    ∃ sv sv' image, Reaches integerIntrinsics KeepsTables sv ∧
      Step integerIntrinsics sv (.serve (.update blindSet) (fun _ => tickingEnv 0) 0) sv' ∧
      OrdMap.find "accounts" sv.cat.tables = some image ∧ GuardRule blindSet image.def_ := by
  have hreach : Reaches integerIntrinsics KeepsTables ⟨freeAccounts, [.update blindSet]⟩ := by
    apply reaches_freeAccounts
    · intro def_ _ request hr
      cases hr
    · intro def_ he
      cases he
  obtain ⟨out, hserve⟩ := apply_stateAfter
    (.updateWhere "accounts" (updatePolicy integerIntrinsics blindSet)) freeAccounts
    (by decide +kernel)
  have hstep : Step integerIntrinsics ⟨freeAccounts, [.update blindSet]⟩
      (.serve (.update blindSet) (fun _ => tickingEnv 0) 0) _ :=
    .serve (i := 0) rfl rfl hserve
  have hsome : (OrdMap.find "accounts" freeAccounts.tables).isSome = true := by decide +kernel
  obtain ⟨image, himage⟩ := Option.isSome_iff_exists.1 hsome
  exact ⟨_, _, image, hreach, hstep, himage,
    committed_updates_are_guarded hreach hstep blindSet _ image ⟨rfl, rfl⟩ himage⟩

/-- An update validated while the column was free commits after the table was dropped and
created again with the column guarded. -/
theorem recreated_table_is_set_blindly :
    ∃ sv sv' image, Reaches integerIntrinsics (fun _ _ => True) sv ∧
      Step integerIntrinsics sv (.serve (.update blindSet) (fun _ => tickingEnv 0) 0) sv' ∧
      Applies integerIntrinsics (fun _ => tickingEnv 0) 0 sv.cat (.update blindSet) blindSet
        sv.cat ∧
      OrdMap.find "accounts" sv.cat.tables = some image ∧ ¬ GuardRule blindSet image.def_ := by
  obtain ⟨_, hdrop⟩ := apply_stateAfter (.dropTable "accounts") freeAccounts (by decide +kernel)
  obtain ⟨_, hcreate⟩ := apply_stateAfter (.createTable (accountsDef .guarded)) noAccounts
    (by decide +kernel)
  obtain ⟨_, hinsert⟩ := apply_stateAfter (.insert "accounts" oneAccount.rows) guardedAccounts
    (by decide +kernel)
  obtain ⟨_, hserve⟩ := apply_stateAfter
    (.updateWhere "accounts" (updatePolicy integerIntrinsics blindSet)) filledAccounts
    (by decide +kernel)
  have hvalid : validate (schemaOf guardedAccounts.snapshot) (.insert oneAccount) = .ok .write := by
    decide +kernel
  have hreach := reaches_freeAccounts (C := fun _ _ => True) trivial trivial
  have hreach := hreach.step trivial (.define rfl hdrop)
  have hreach := hreach.step trivial (.define rfl hcreate)
  have hreach := hreach.step trivial (.ask hvalid)
  have hreach := hreach.step trivial (.serve (i := 1) rfl rfl hinsert)
  have htest : (OrdMap.find "accounts" filledAccounts.tables).any (fun i =>
      i.def_.columns = (accountsDef .guarded).columns && i.data.length = 1) = true := by
    decide +kernel
  obtain ⟨image, himage, hcols⟩ := (Option.any_eq_true _ _).1 htest
  rw [Bool.and_eq_true_iff, decide_eq_true_eq] at hcols
  refine ⟨_, _, image, hreach, .serve (i := 0) rfl rfl hserve, ⟨rfl, rfl⟩, himage, ?_⟩
  intro hrule
  obtain ⟨pred, hpred, -⟩ := hrule ("balance", .literal (.i64 5)) (List.mem_singleton.2 rfl)
    { ColumnDef.new "balance" .i64 with update := .guarded }
    (by rw [hcols.1]; exact List.mem_cons_of_mem _ (List.mem_singleton.2 rfl)) rfl rfl rfl
  cases hpred

end Edb.Query
